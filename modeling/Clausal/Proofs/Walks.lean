import Mathlib
import Clausal.Proofs.Results

/-!
# Walks and their memory

A workspace is coherent if its pool is well typed and every remembered result is a
result, and sound if moreover no word in it has width zero. `bottomUp_yields` and
`topDown_tries` say for the two walks that, on a coherent workspace, a step which
does its part at every node makes the walk do its part, whatever was remembered
before. A walk from the top down may fail, but only on expressions that have no
result.
-/

namespace Clausal

namespace Workspace

variable {before after : Workspace PassMemory}

/-- The pool is well typed, and every remembered result is a result. -/
structure Coherent (workspace : Workspace PassMemory) : Prop where
  typed : workspace.pool.WellTyped
  remembered : ∀ {pass : Pass} {e r : ExprId}, workspace.memory[(pass, e)]? = some r →
    pass.Result workspace.pool e r

/-- A coherent workspace has no words of width zero. -/
structure Sound (workspace : Workspace PassMemory) : Prop extends Coherent workspace where
  sized : workspace.pool.Sized

/-- A result may be remembered. -/
theorem Coherent.insert {workspace : Workspace PassMemory} {pass : Pass} {e r : ExprId}
    (coherent : workspace.Coherent) (result : pass.Result workspace.pool e r) :
    Coherent ⟨workspace.pool, workspace.memory.insert (pass, e) r⟩ := by
  refine ⟨coherent.typed, fun {otherPass other found} stored => ?_⟩
  simp only [Std.HashMap.getElem?_insert] at stored
  split at stored
  · rename_i same
    cases eq_of_beq same
    cases stored
    exact result
  · exact coherent.remembered stored

/-- The pool may grow under the memory. -/
theorem Coherent.grow {workspace : Workspace PassMemory} {pool : Pool} (coherent : workspace.Coherent)
    (grows : workspace.pool.Grows pool) : Coherent ⟨pool, workspace.memory⟩ :=
  ⟨grows.wellTyped coherent.typed, fun found => (coherent.remembered found).mono grows.extension⟩

/-- A later workspace has all nodes of an earlier one and is as coherent. -/
structure Advances (before after : Workspace PassMemory) : Prop where
  pool : before.pool.Advances after.pool
  coherent : before.Coherent → after.Coherent

instance : IsPreorder (Workspace PassMemory) Advances where
  refl workspace := ⟨refl workspace.pool, id⟩
  trans _ _ _ earlier later :=
    ⟨IsTrans.trans _ _ _ earlier.pool later.pool, fun holds => later.coherent (earlier.coherent holds)⟩

theorem Advances.extension (advances : before.Advances after) : before.pool.Extends after.pool :=
  advances.pool.extension

theorem Advances.sound (advances : before.Advances after) (sound : before.Sound) : after.Sound :=
  ⟨advances.coherent sound.toCoherent, advances.pool.sized sound.sized⟩

theorem advances_of_pool {pool : Pool} (advances : before.pool.Advances pool) :
    before.Advances ⟨pool, before.memory⟩ :=
  ⟨advances, fun coherent => coherent.grow advances.toGrows⟩

end Workspace

namespace Work

variable {α : Type} {workspace : Workspace PassMemory} {pass : Pass} {e r : ExprId}

/-- An action succeeds, the workspace advances, and `done` holds at the end. -/
abbrev Yields (action : Work α) (workspace : Workspace PassMemory)
    (done : α → Workspace PassMemory → Prop) : Prop :=
  Stateful.Yields Workspace.Advances action workspace done

/-- An action succeeds with `done` at the end or has an excuse, and the workspace
advances. -/
abbrev Tries (action : Work α) (workspace : Workspace PassMemory)
    (done : α → Workspace PassMemory → Prop) (excused : Prop) : Prop :=
  Stateful.Tries Workspace.Advances action workspace done excused

/-- The workspace advances, whether the action succeeds or fails. -/
abbrev Keeps (action : Work α) (workspace : Workspace PassMemory) : Prop :=
  Stateful.Keeps Workspace.Advances action workspace

/-- Building leaves the memory as it is. -/
theorem meets_ofBuild {action : Build α} {done : α → Workspace PassMemory → Prop}
    {failed : Failure BuildError → Workspace PassMemory → Prop} :
    Stateful.Meets (Walk.ofBuild action) workspace done failed ↔
      Stateful.Meets action workspace.pool (fun result pool => done result ⟨pool, workspace.memory⟩)
        fun failure pool => failed failure ⟨pool, workspace.memory⟩ := by
  obtain ⟨pool, memory⟩ := workspace
  unfold Stateful.Meets Walk.ofBuild
  dsimp only
  cases action pool <;> rfl

/-- Building changes the pool only. -/
theorem final_ofBuild (action : Build α) (workspace : Workspace PassMemory) :
    (Walk.ofBuild action : Work α).final workspace =
      ⟨Stateful.final action workspace.pool, workspace.memory⟩ := by
  obtain ⟨pool, memory⟩ := workspace
  unfold Stateful.final Walk.ofBuild
  dsimp only
  cases action pool <;> rfl

theorem ofBuild_tries {action : Build α} {done : α → Pool → Prop} {excused : Prop}
    (tries : Stateful.Tries Pool.Advances action workspace.pool done excused) :
    Tries (Walk.ofBuild action) workspace (fun result after => done result after.pool) excused := by
  refine meets_ofBuild.mpr (Stateful.Meets.mono tries ?_ ?_)
  · exact fun result pool reached => ⟨Workspace.advances_of_pool reached.1, reached.2⟩
  · exact fun failure pool failed => ⟨Workspace.advances_of_pool failed.1, failed.2⟩

theorem ofBuild_yields {action : Build α} {done : α → Pool → Prop}
    (yields : Build.Yields action workspace.pool done) :
    Yields (Walk.ofBuild action) workspace fun result after => done result after.pool :=
  (ofBuild_tries (Stateful.Yields.tries yields)).yields not_false

theorem ofBuild_keeps {action : Build α} (keeps : Build.Keeps action workspace.pool) :
    Keeps (Walk.ofBuild action) workspace :=
  (ofBuild_tries (Stateful.Keeps.tries keeps)).keeps

/-- A remembered result is used, and otherwise the work goes on. -/
theorem lookUp_tries {next : Option ExprId → Work α} {done : α → Workspace PassMemory → Prop}
    {excused : Prop}
    (hit : ∀ r, workspace.memory[(pass, e)]? = some r → Tries (next (some r)) workspace done excused)
    (miss : Tries (next none) workspace done excused) :
    Tries (Walk.lookUp pass.memo e >>= next) workspace done excused := by
  unfold Walk.lookUp
  rw [bind_assoc]
  refine .get ?_
  rw [pure_bind]
  cases found : pass.memo.find? workspace.memory e with
  | none => exact miss
  | some r => exact hit r found

/-- A result is remembered for the expression and for itself. -/
theorem remember_yields (result : pass.Result workspace.pool e r) :
    Yields (Walk.remember pass.memo e r) workspace fun _ after => after.pool = workspace.pool := by
  refine ⟨⟨refl workspace.pool, fun coherent => ?_⟩, rfl⟩
  have once : Workspace.Coherent ⟨workspace.pool, workspace.memory.insert (pass, e) r⟩ :=
    coherent.insert result
  change Workspace.Coherent ⟨workspace.pool, if r = e then _ else _⟩
  split
  · exact once
  · exact once.insert (result.self coherent.typed)

end Work

section Rebuilding

variable {pool before after : Pool} {e r : ExprId} {new : List ExprId}

/-- `r` is `e` with new operands: itself if they are the same, and otherwise the
operator of `e` on the new operands. -/
structure Pool.Rebuilds (pool : Pool) (e : ExprId) (new : List ExprId) (r : ExprId) : Prop where
  same : new = pool.operands e → r = e
  application : ∀ {ty : Ty} {op : Op}, pool.node? e = some ⟨ty, .apply op (pool.operands e)⟩ →
    pool.node? r = some ⟨ty, .apply op new⟩

namespace Pool.Rebuilds

/-- The rebuilt expression is kept, or is an application of the same operator. -/
theorem cases {related : ExprId → ExprId → Prop} (rebuilds : pool.Rebuilds e new r)
    (each : List.Forall₂ related (pool.operands e) new) :
    r = e ∧ pool.op? e = none ∨
      ∃ ty op, pool.node? e = some ⟨ty, .apply op (pool.operands e)⟩ ∧
        pool.node? r = some ⟨ty, .apply op new⟩ := by
  cases found : pool.op? e with
  | none =>
    have noOperands := operands_of_op?_eq_none found
    rw [noOperands, List.forall₂_nil_left_iff] at each
    exact .inl ⟨rebuilds.same (each.trans noOperands.symm), rfl⟩
  | some op =>
    obtain ⟨ty, stored⟩ := node?_of_op? found
    exact .inr ⟨ty, op, stored, rebuilds.application stored⟩

/-- The new operands are the operands of the rebuilt expression. -/
theorem operands_eq {related : ExprId → ExprId → Prop} (rebuilds : pool.Rebuilds e new r)
    (each : List.Forall₂ related (pool.operands e) new) : pool.operands r = new := by
  rcases rebuilds.cases each with ⟨rfl, leaf⟩ | ⟨ty, op, application, result⟩
  · rw [operands_of_op?_eq_none leaf, List.forall₂_nil_left_iff] at each
    rw [operands_of_op?_eq_none leaf, each]
  · exact operands_of_node? result

/-- The tree of the rebuilt expression is rebuilt. -/
theorem tree_eq {related : ExprId → ExprId → Prop} (rebuilds : pool.Rebuilds e new r)
    (stored : pool.Has e) (each : List.Forall₂ related (pool.operands e) new) :
    pool.tree r = (pool.tree e).rebuild (new.map pool.tree) := by
  rcases rebuilds.cases each with ⟨rfl, leaf⟩ | ⟨ty, op, application, result⟩
  · obtain ⟨⟨ty, form⟩, found⟩ := has_iff.mp stored
    rw [tree_of_node? found]
    cases form with
    | var | const => rfl
    | apply op operands =>
      rw [op?_of_apply found] at leaf
      cases leaf
  · rw [tree_apply application, tree_apply result]
    rfl

theorem refines (rebuilds : pool.Rebuilds e new r) (stored : pool.Has e)
    (each : List.Forall₂ pool.Refines (pool.operands e) new) : pool.Refines e r := by
  rcases rebuilds.cases each with ⟨rfl, -⟩ | ⟨ty, op, application, result⟩
  · exact .refl stored
  · exact refines_apply application result each

/-- An expression is kept if its operands are, each because of a condition on it. -/
theorem eq_of_kept {condition : ExprId → Prop} (rebuilds : pool.Rebuilds e new r)
    (holds : ∀ operand ∈ pool.operands e, condition operand)
    (each : List.Forall₂ (fun operand result => condition operand → result = operand)
      (pool.operands e) new) : r = e := by
  refine rebuilds.same (List.forall₂_eq_eq_eq ▸ ?_)
  exact (forall₂_imp_of_mem each fun operand member result kept =>
    (kept (holds operand member)).symm).flip.imp fun _ _ => Eq.symm

/-- What holds of the rebuilt application and everywhere in the new operands holds
everywhere. -/
theorem everywhere {holds : Op → List ExprId → Prop} {related : ExprId → ExprId → Prop}
    (rebuilds : pool.Rebuilds e new r) (each : List.Forall₂ related (pool.operands e) new)
    (top : ∀ op ∈ pool.op? e, holds op new) (below : ∀ result ∈ new, pool.Everywhere holds result) :
    pool.Everywhere holds r := by
  rcases rebuilds.cases each with ⟨rfl, leaf⟩ | ⟨ty, op, application, result⟩
  · exact everywhere_leaf leaf
  · exact (everywhere_apply result).mpr ⟨top op (op?_of_apply application), below⟩

/-- An expression that is rebuilt with operands of the same types resists negations
as before. -/
theorem resists (rebuilds : pool.Rebuilds e new r)
    (each : List.Forall₂ pool.Refines (pool.operands e) new) (resists : pool.Resists e) :
    pool.Resists r := by
  rcases rebuilds.cases each with ⟨rfl, leaf⟩ | ⟨ty, op, application, result⟩
  · exact resists
  · cases resists with
    | var stored =>
      rw [application] at stored
      cases stored
    | bit stored =>
      rw [application] at stored
      cases stored
      exact .bit result
    | field stored =>
      rw [application] at stored
      cases stored
      exact .field result
    | equality stored different =>
      rw [application] at stored
      cases stored
      refine .equality result fun other member isBool => ?_
      obtain ⟨operand, operandMember, refines⟩ := exists_of_forall₂_of_mem each.flip member
      obtain ⟨ty, operandTy, otherTy⟩ := refines.sameTy
      obtain rfl := otherTy.unique isBool
      exact different operand operandMember operandTy

theorem weight_le (rebuilds : pool.Rebuilds e new r)
    (each : List.Forall₂ (fun operand result => pool.weight result ≤ pool.weight operand)
      (pool.operands e) new) : pool.weight r ≤ pool.weight e := by
  rcases rebuilds.cases each with ⟨rfl, -⟩ | ⟨ty, op, application, result⟩
  · exact le_rfl
  · rw [weight_apply application, weight_apply result]
    exact Nat.add_le_add_left (total_le_total each) _

end Pool.Rebuilds

/-- An expression is rebuilt with refined operands. -/
theorem Walk.withOperands_yields (typed : pool.WellTyped) (stored : pool.Has e)
    (each : List.Forall₂ pool.Refines (pool.operands e) new)
    (rigid : List.Forall₂ (fun operand result => pool.Rigid operand → result = operand)
      (pool.operands e) new) :
    Build.Yields (Walk.withOperands e (pool.operands e) new) pool fun r after =>
      after.Rebuilds e new r := by
  unfold Walk.withOperands
  split
  · rename_i same
    refine .pure ⟨fun _ => rfl, fun application => ?_⟩
    rwa [same]
  · rename_i differ
    refine .get ?_
    cases found : pool.op? e with
    | none =>
      refine .pure ⟨fun _ => rfl, fun application => ?_⟩
      rw [Pool.op?_of_apply application] at found
      cases found
    | some op =>
      obtain ⟨ty, application⟩ := Pool.node?_of_op? found
      have applies : pool.Applies op (pool.operands e) ty := typed.fits application
      refine (Build.apply_yields (applies.refined each rigid)).mono fun r after advances result => ?_
      have extension := advances.extension
      refine ⟨fun same => absurd (same.trans (extension.operands_eq stored)) differ, ?_⟩
      intro otherTy otherOp otherApplication
      simp only [extension application, Option.some.injEq, Node.mk.injEq, Form.apply.injEq]
        at otherApplication
      obtain ⟨rfl, rfl, -⟩ := otherApplication
      exact result

end Rebuilding

section Walks

variable {pass : Pass} {step : ExprId → Work ExprId} {workspace : Workspace PassMemory} {e : ExprId}

/-- The results of a pass for a list of expressions last. -/
theorem Work.mapM_tries {run : ExprId → Work ExprId} {operands : List ExprId} {excused : Prop}
    (each : ∀ operand ∈ operands, ∀ after, workspace.Advances after →
      Work.Tries (run operand) after (fun r final => pass.Result final.pool operand r) excused) :
    Work.Tries (operands.mapM run) workspace (fun new after =>
      List.Forall₂ (fun operand r => pass.Result after.pool operand r) operands new) excused := by
  refine Stateful.Tries.mapM (fun operand r (after : Workspace PassMemory) =>
    pass.Result after.pool operand r) ?_ each
  exact fun operand r before after advances result => result.mono advances.extension

/-- An expression is rebuilt with the results for its operands. -/
theorem Work.withOperands_yields {new : List ExprId} (coherent : workspace.Coherent)
    (stored : workspace.pool.Has e)
    (each : List.Forall₂ (pass.Result workspace.pool) (workspace.pool.operands e) new) :
    Work.Yields (Walk.ofBuild (Walk.withOperands e (workspace.pool.operands e) new)) workspace
      fun r after => after.pool.Rebuilds e new r :=
  Work.ofBuild_yields (Walk.withOperands_yields coherent.typed stored
    (each.imp fun _ _ result => result.refines) (each.imp fun _ _ result => result.rigid))

/-- A walk from the operands up treats the operands first, then the rebuilt
expression. -/
theorem Walk.bottomUp_eq {σ : Type} (memo : Memo σ) (step : ExprId → Walk σ ExprId) (e : ExprId) :
    Walk.bottomUp memo step e = (do
      match ← Walk.lookUp memo e with
      | some result => return result
      | none =>
        let pool := (← get).pool
        let new ← (pool.operands e).mapM (Walk.bottomUp memo step)
        let same ← Walk.ofBuild (Walk.withOperands e (pool.operands e) new)
        let result ← step same
        Walk.remember memo e result
        return result) := by
  rw [Walk.bottomUp]
  refine bind_congr fun found => ?_
  cases found with
  | some result => rfl
  | none =>
    refine bind_congr fun workspace => ?_
    exact congrArg (· >>= _) (mapM_attach _ _)

/-- What a walk from the operands up returns is remembered. -/
theorem Walk.memory_of_bottomUp {after : Workspace PassMemory} {r : ExprId}
    (ended : Walk.bottomUp pass.memo step e workspace = .ok r after) :
    after.memory[(pass, e)]? = some r := by
  rw [Walk.bottomUp_eq] at ended
  obtain ⟨found, first, looked, ended⟩ := Stateful.bind_eq_ok.mp ended
  cases looked
  cases hit : pass.memo.find? workspace.memory e with
  | some result =>
    rw [hit] at ended
    cases ended
    exact hit
  | none =>
    rw [hit] at ended
    obtain ⟨_, _, -, ended⟩ := Stateful.bind_eq_ok.mp ended
    obtain ⟨_, _, -, ended⟩ := Stateful.bind_eq_ok.mp ended
    obtain ⟨_, _, -, ended⟩ := Stateful.bind_eq_ok.mp ended
    obtain ⟨result, last, -, ended⟩ := Stateful.bind_eq_ok.mp ended
    cases ended
    change (if r = e then last.memory.insert (pass, e) r
      else (last.memory.insert (pass, e) r).insert (pass, r) r)[(pass, e)]? = some r
    split
    · exact Std.HashMap.getElem?_insert_self
    · rename_i differ
      rw [Std.HashMap.getElem?_insert, if_neg (by simp [differ]), Std.HashMap.getElem?_insert_self]

/-- The grammars of an expression and of what its operands were replaced by are
those of the rebuilt expression. -/
theorem Pool.Rebuilds.follows {pool : Pool} {new : List ExprId} {r : ExprId} {grammar : Grammar}
    (rebuilds : pool.Rebuilds e new r) (each : List.Forall₂ (pass.Result pool) (pool.operands e) new)
    (top : ∀ op ∈ pool.op? e, grammar.Allows pool op (pool.operands e))
    (below : ∀ operand ∈ pool.operands e, ∀ result, pass.Result pool operand result →
      pool.Follows grammar result) : pool.Follows grammar r := by
  refine rebuilds.everywhere each (fun op found => ?_) fun result member => ?_
  · exact (top op found).replaced (each.imp fun _ _ result => result.resembles)
  · obtain ⟨operand, operandMember, operandResult⟩ := exists_of_forall₂_of_mem each.flip member
    exact below operand operandMember result operandResult

/-- Rebuilding an expression with results for its operands is a step, except for
decomposition. -/
theorem Pool.Rebuilds.toStep {pool : Pool} {new : List ExprId} {r : ExprId}
    (rebuilds : pool.Rebuilds e new r) (typed : pool.WellTyped) (stored : pool.Has e)
    (each : List.Forall₂ (pass.Result pool) (pool.operands e) new) : pass.Step pool e r := by
  refine ⟨rebuilds.refines stored (each.imp fun _ _ result => result.refines), ?rigid, ?keeps, ?lighter,
    ?fixed⟩
  case rigid =>
    intro rigid
    exact rebuilds.eq_of_kept (fun _ => rigid.operand typed) (each.imp fun _ _ result => result.rigid)
  case keeps =>
    intro notDecompose grammar closed follows
    refine rebuilds.follows each (follows .refl) fun operand member result operandResult => ?_
    exact operandResult.keeps notDecompose closed (follows.operand member)
  case lighter =>
    intro isSimplify
    exact rebuilds.weight_le (each.imp fun _ _ result => result.lighter isSimplify)
  case fixed =>
    intro isSimplify simplified
    exact rebuilds.eq_of_kept (fun _ => simplified.operand)
      (each.imp fun _ _ result => result.fixed isSimplify)

section Ascent

variable {pool after : Pool} {same r : ExprId} {new : List ExprId}
  (rebuilds : pool.Rebuilds e new same) (typed : pool.WellTyped) (stored : pool.Has e)
  (each : List.Forall₂ (pass.Result pool) (pool.operands e) new)

include stored each in
/-- The trees of results derive from the operands of the tree. -/
theorem Pass.derives_operands :
    List.Forall₂ pass.Derives (pool.tree e).operands (new.map pool.tree) := by
  rw [Pool.operands_tree stored, List.forall₂_map_left_iff, List.forall₂_map_right_iff]
  exact each.imp fun _ _ result => result.derives

variable (extension : pool.Extends after) (ended : pass.step same pool = .ok r after)
include rebuilds typed stored each ended

/-- What becomes of the rebuilt tree at the top. -/
theorem Pool.Rebuilds.turns :
    pass.Turns ((pool.tree e).rebuild (new.map pool.tree)) (after.tree r) := by
  rw [← rebuilds.tree_eq stored each]
  exact .of_ok typed (rebuilds.toStep typed stored each).refines.has_right ended

include extension

/-- What the step makes of the rebuilt expression derives from the expression. The
simplifier stops where it changes nothing. -/
theorem Pool.Rebuilds.derives_up (ascends : pass.ascends) (settled : pass = .simplify → r = same) :
    pass.Derives (after.tree e) (after.tree r) := by
  have turns := rebuilds.turns typed stored each ended
  rw [extension.tree_eq stored]
  refine .of_up ascends (Pass.derives_operands stored each) turns fun isSimplify => ?_
  obtain rfl := settled isSimplify
  have resultStored := (rebuilds.toStep typed stored each).refines.has_right
  rw [extension.tree_eq resultStored, rebuilds.tree_eq stored each]

/-- The simplifier goes on with what a rule made of the rebuilt expression. -/
theorem Pool.Rebuilds.derives_again {result : Tree} (isSimplify : pass = .simplify)
    (afterTyped : after.WellTyped) (resultStored : after.Has r) (changed : r ≠ same)
    (rest : pass.Derives (after.tree r) result) : pass.Derives (after.tree e) result := by
  subst isSimplify
  have turns := rebuilds.turns typed stored each ended
  have sameStored := (rebuilds.toStep typed stored each).refines.has_right
  rw [extension.tree_eq stored]
  refine .of_again (Pass.derives_operands stored each) turns (fun unchanged => changed ?_) rest
  refine afterTyped.tree_injective resultStored (extension.has sameStored) ?_
  rw [unchanged, extension.tree_eq sameStored, rebuilds.tree_eq stored each]

end Ascent

/-- A walk from the operands up does its part if the step does so for every
expression that is rebuilt with results. The step of the simplifier may count on
expressions that are not heavier than the first one. -/
theorem bottomUp_yields (limit : Nat)
    (stepYields : ∀ {workspace : Workspace PassMemory} {e same : ExprId} {new : List ExprId},
      workspace.Coherent → workspace.pool.Has e → workspace.pool.Rebuilds e new same →
        List.Forall₂ (pass.Result workspace.pool) (workspace.pool.operands e) new →
          (pass = .simplify → workspace.pool.weight same ≤ limit) →
            Work.Yields (step same) workspace fun r after => pass.Result after.pool e r)
    (coherent : workspace.Coherent) (stored : workspace.pool.Has e)
    (light : pass = .simplify → workspace.pool.weight e ≤ limit) :
    Work.Yields (Walk.bottomUp pass.memo step e) workspace fun r after =>
      pass.Result after.pool e r := by
  induction index : e.index using Nat.strong_induction_on generalizing e workspace with
  | _ size inductionHypothesis =>
  subst index
  rw [Walk.bottomUp_eq]
  refine Stateful.Tries.yields (Work.lookUp_tries (fun r found => .pure (coherent.remembered found))
    (.get (Stateful.Yields.tries ?_))) not_false
  have operandYields : Work.Yields ((workspace.pool.operands e).mapM (Walk.bottomUp pass.memo step))
      workspace fun new after =>
        List.Forall₂ (fun operand r => pass.Result after.pool operand r) (workspace.pool.operands e)
          new := by
    refine (Work.mapM_tries fun operand member after advances => ?_).yields not_false
    have smaller := Pool.index_lt_of_mem_operands member
    have operandStored := Pool.has_operand member
    refine (inductionHypothesis operand.index smaller (advances.coherent coherent)
      (advances.extension.has operandStored) (fun isSimplify => ?_) rfl).tries
    rw [advances.extension.weight_eq operandStored]
    exact (Pool.weight_lt_of_mem_operands member).le.trans (light isSimplify)
  refine operandYields.bind fun new first toNew each => ?_
  have firstCoherent := toNew.coherent coherent
  have firstStored := toNew.extension.has stored
  rw [← toNew.extension.operands_eq stored] at each ⊢
  refine (Work.withOperands_yields firstCoherent firstStored each).bind
    fun same second toSame rebuilds => ?_
  have secondCoherent := toSame.coherent firstCoherent
  have secondStored := toSame.extension.has firstStored
  have secondEach : List.Forall₂ (pass.Result second.pool) (second.pool.operands e) new := by
    rw [toSame.extension.operands_eq firstStored]
    exact each.imp fun _ _ result => result.mono toSame.extension
  refine (stepYields secondCoherent secondStored rebuilds secondEach ?_).bind
    fun r third toResult result => ?_
  · intro isSimplify
    have weights := (rebuilds.toStep secondCoherent.typed secondStored secondEach).lighter isSimplify
    rw [(toNew.extension.trans toSame.extension).weight_eq stored] at weights
    exact weights.trans (light isSimplify)
  · exact (Work.remember_yields result).bind fun _ final _ unchanged => .pure (unchanged ▸ result)

section Descent

variable {pool : Pool} {top r : ExprId} {new : List ExprId} (tops : pass.Tops pool e top)
  (rebuilds : pool.Rebuilds top new r) (typed : pool.WellTyped)
  (each : List.Forall₂ (pass.Result pool) (pool.operands top) new)
include tops rebuilds each

/-- What takes the place of an expression settles what the pass is run for, once it
is rebuilt with results for its operands. -/
theorem Pass.Tops.settles (descends : pass = .pushNegation ∨ pass = .decompose) :
    pass.Settles pool e r := by
  rcases descends with rfl | rfl
  · obtain ⟨resist, kept⟩ := tops.pushed rfl
    have refined := each.imp fun _ _ result => result.refines
    refine ⟨rebuilds.everywhere each (fun op found isNot other member => ?_) ?_, fun resists => ?_⟩
    · subst isNot
      obtain ⟨operand, operandMember, result⟩ := exists_of_forall₂_of_mem each.flip member
      exact result.settles.2 (resist found operand operandMember)
    · intro other member
      obtain ⟨operand, -, result⟩ := exists_of_forall₂_of_mem each.flip member
      exact result.settles.1
    · exact rebuilds.resists refined (kept resists ▸ resists)
  · exact rebuilds.follows each (tops.plain rfl) fun operand _ result operandResult =>
      operandResult.settles

include typed

/-- What takes the place of an expression is a result once it is rebuilt with
results for its operands. -/
theorem Pass.Tops.result (descends : pass = .pushNegation ∨ pass = .decompose)
    (turns : pass.Turns (pool.tree e) (pool.tree top)) : pass.Result pool e r := by
  have topStored := tops.refines.has_right
  have notSimplify : pass ≠ .simplify := by rcases descends with rfl | rfl <;> simp
  have notCanonicalize : pass ≠ .canonicalize := by rcases descends with rfl | rfl <;> simp
  refine ⟨⟨?refines, ?rigid, ?keeps, fun isSimplify => absurd isSimplify notSimplify,
    fun isSimplify => absurd isSimplify notSimplify⟩, tops.settles rebuilds each descends,
    fun isCanonicalize => absurd isCanonicalize notCanonicalize, ?derives⟩
  case refines =>
    exact tops.refines.trans (rebuilds.refines topStored (each.imp fun _ _ result => result.refines))
  case rigid =>
    intro rigid
    have same := tops.rigid rigid
    have topRigid : pool.Rigid top := same.symm ▸ rigid
    have kept := rebuilds.eq_of_kept (fun _ => topRigid.operand typed)
      (each.imp fun _ _ result => result.rigid)
    rw [kept, same]
  case keeps =>
    intro notDecompose grammar closed follows
    have topFollows := tops.keeps notDecompose closed follows
    refine rebuilds.follows each (topFollows .refl) fun operand member result operandResult => ?_
    exact operandResult.keeps notDecompose closed (topFollows.operand member)
  case derives =>
    have descending : pass.ascends = false := by rcases descends with rfl | rfl <;> rfl
    rw [rebuilds.tree_eq topStored each]
    exact .of_down descending turns (Pass.derives_operands topStored each)

end Descent

/-- A walk from the top down does its part if the step does. Ranks bound how deep
it goes. -/
theorem topDown_tries {depth : Nat} (descends : pass = .pushNegation ∨ pass = .decompose)
    (stepTries : ∀ {pool : Pool} {e : ExprId}, pool.WellTyped → pool.Has e →
      Stateful.Tries Pool.Advances (pass.step e) pool (fun top after => pass.Tops after e top)
        (pool.Stuck pass.Turns e))
    (coherent : workspace.Coherent) (stored : workspace.pool.Has e)
    (bounded : workspace.pool.rank e ≤ depth) :
    Work.Tries (Walk.topDown pass.memo (fun e => Walk.ofBuild (pass.step e)) depth e) workspace
      (fun r after => pass.Result after.pool e r) (workspace.pool.Stuck pass.Derives e) := by
  have descending : pass.ascends = false := by rcases descends with rfl | rfl <;> rfl
  induction depth generalizing e workspace with
  | zero => exact absurd bounded (Pool.rank_pos stored).not_ge
  | succ depth inductionHypothesis =>
    unfold Walk.topDown
    refine Work.lookUp_tries (fun r found => .pure (coherent.remembered found)) ?_
    refine ((Work.ofBuild_tries (stepTries coherent.typed stored).ran).excuse fun stuck =>
      ⟨stuck.narrow, Pass.not_derives_of_not_turns descending stuck.no_result⟩).bind
        fun top first toTop ⟨tops, ended⟩ => .get ?_
    have firstCoherent := toTop.coherent coherent
    have turns : pass.Turns (workspace.pool.tree e) (first.pool.tree top) :=
      .of_ok coherent.typed stored ended
    have operandTries : Work.Tries
        ((first.pool.operands top).mapM
          (Walk.topDown pass.memo (fun e => Walk.ofBuild (pass.step e)) depth)) first
        (fun new after => List.Forall₂ (fun operand r => pass.Result after.pool operand r)
          (first.pool.operands top) new) (workspace.pool.Stuck pass.Derives e) := by
      refine Work.mapM_tries fun operand member after advances => ?_
      have operandStored := Pool.has_operand member
      refine (inductionHypothesis (advances.coherent firstCoherent)
        (advances.extension.has operandStored) ?_).excuse fun stuck => ?_
      · have below := tops.shallow operand member
        rw [advances.extension.rank_eq operandStored]
        rw [toTop.extension.rank_eq stored] at below
        omega
      · refine ⟨fun sized => stuck.narrow (advances.pool.sized (toTop.pool.sized sized)), ?_⟩
        refine Pass.not_derives_of_operand descending turns ?_ stuck.no_result
        rw [Pool.operands_tree tops.refines.has_right, advances.extension.tree_eq operandStored]
        exact List.mem_map_of_mem member
    refine operandTries.bind fun new second toNew each => ?_
    have secondCoherent := toNew.coherent firstCoherent
    have topStored := toNew.extension.has tops.refines.has_right
    rw [← toNew.extension.operands_eq tops.refines.has_right] at each ⊢
    refine (Work.withOperands_yields secondCoherent topStored each).tries.bind
      fun r third toResult rebuilds => ?_
    have extension := toNew.extension.trans toResult.extension
    have thirdEach : List.Forall₂ (pass.Result third.pool) (third.pool.operands top) new := by
      rw [toResult.extension.operands_eq topStored]
      exact each.imp fun _ _ result => result.mono toResult.extension
    have whole : pass.Result third.pool e r := by
      refine (tops.mono extension).result rebuilds (toResult.coherent secondCoherent).typed thirdEach
        descends ?_
      rwa [extension.tree_eq tops.refines.has_right,
        (toTop.extension.trans extension).tree_eq stored]
    exact (Work.remember_yields whole).tries.bind fun _ final _ unchanged => .pure (unchanged ▸ whole)

end Walks

end Clausal
