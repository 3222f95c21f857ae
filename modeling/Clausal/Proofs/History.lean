import Mathlib
import Clausal.Problem
import Clausal.Proofs.Passes

/-!
# Histories of a workspace

`Workspace.Step` lists what can be done with a workspace: expressions are
constructed, passes are run, and problems are compiled, solved and enumerated
with any engine. A step may succeed or fail. `Reachable.sound` says that every
workspace that such steps lead to is sound.
-/

namespace Clausal

namespace Solve

variable {α β : Type} {workspace : Workspace PassMemory}

/-- An action succeeds, the workspace advances, and `done` holds at the end. -/
abbrev Yields (action : Solve α) (workspace : Workspace PassMemory)
    (done : α → Workspace PassMemory → Prop) : Prop :=
  Stateful.Yields Workspace.Advances action workspace done

/-- The workspace advances, whether the action succeeds or fails. -/
abbrev Keeps (action : Solve α) (workspace : Workspace PassMemory) : Prop :=
  Stateful.Keeps Workspace.Advances action workspace

/-- Running passes is running them, up to the kind of error. -/
theorem meets_ofWork {action : Work α} {done : α → Workspace PassMemory → Prop}
    {failed : Failure SolveError → Workspace PassMemory → Prop} :
    Stateful.Meets (ofWork action) workspace done failed ↔
      Stateful.Meets action workspace done fun failure after => failed (failure.map .build) after := by
  unfold Stateful.Meets ofWork
  cases action workspace <;> rfl

theorem ofWork_yields {action : Work α} {done : α → Workspace PassMemory → Prop}
    (yields : Work.Yields action workspace done) : Yields (ofWork action) workspace done :=
  meets_ofWork.mpr yields

theorem ofWork_keeps {action : Work α} (keeps : Work.Keeps action workspace) :
    Keeps (ofWork action) workspace :=
  meets_ofWork.mpr keeps

theorem ofBuild_yields {action : Build α} {done : α → Pool → Prop}
    (yields : Build.Yields action workspace.pool done) :
    Yields (ofBuild action) workspace fun result after => done result after.pool :=
  ofWork_yields (Work.ofBuild_yields yields)

theorem ofBuild_keeps {action : Build α} (keeps : Build.Keeps action workspace.pool) :
    Keeps (ofBuild action) workspace :=
  ofWork_keeps (Work.ofBuild_keeps keeps)

/-- Lowering does not change the workspace. -/
theorem ofLower_keeps (action : Lower α) (session : Session) :
    Keeps (ofLower action session) workspace := by
  unfold ofLower
  split
  · exact Stateful.Keeps.pure
  · exact Stateful.Keeps.throw

section Compiling

theorem assertAll_keeps {constraints : List ExprId} {session : Session} (coherent : workspace.Coherent)
    (stored : ∀ constraint ∈ constraints, workspace.pool.Has constraint) :
    Keeps (assertAll session constraints) workspace := by
  induction constraints generalizing session workspace with
  | nil => exact Stateful.Keeps.pure
  | cons constraint rest inductionHypothesis =>
    have normalized := Pass.normalize_tries coherent (stored constraint List.mem_cons_self)
    refine (ofWork_keeps normalized.keeps).bind fun normal middle toNormal => ?_
    refine Stateful.Keeps.get ?_
    refine (ofLower_keeps _ session).bind fun next after advances => ?_
    have extension := toNormal.extension.trans advances.extension
    refine inductionHypothesis (advances.coherent (toNormal.coherent coherent)) fun other member => ?_
    exact extension.has (stored other (List.mem_cons_of_mem constraint member))

theorem lowerAll_keeps (session : Session) (vars : List ExprId) :
    Keeps (lowerAll session vars) workspace := by
  induction vars generalizing session workspace with
  | nil => exact Stateful.Keeps.pure
  | cons var rest inductionHypothesis =>
    refine Stateful.Keeps.get ((ofLower_keeps _ session).bind fun next after _ => ?_)
    exact inductionHypothesis next

theorem compile_keeps {constraints : List ExprId} {options : SolveOptions}
    (coherent : workspace.Coherent)
    (stored : ∀ constraint ∈ constraints, workspace.pool.Has constraint) :
    Keeps (compile constraints options) workspace := by
  refine Stateful.Keeps.get ((assertAll_keeps coherent stored).bind fun session after _ => ?_)
  exact (lowerAll_keeps session _).bind fun _ _ _ => Stateful.Keeps.pure

end Compiling

section Reading

variable {pool : Pool}

theorem bitEquality_keeps (e : ExprId) (index : Nat) (truth : Bool) :
    Build.Keeps (bitEquality e index truth) pool := by
  refine (Build.apply_keeps _ _).bind fun bit first _ => ?_
  exact (Build.truth_yields truth).keeps.bind fun value second _ => Build.apply_keeps _ _

mutual

theorem bitConstraints_keeps {pool : Pool} (e : ExprId) (ty : Ty) (sized : pool.Sized → ty.Sized)
    (bits : List (Option Bool)) : Build.Keeps (bitConstraints e ty bits) pool := by
  unfold bitConstraints
  split
  · exact Stateful.Keeps.pure
  · split
    · refine Stateful.Keeps.ofExcept fun value _ => ?_
      refine (Build.const_keeps value sized).bind fun constant second _ => ?_
      exact (Build.apply_keeps _ _).bind fun _ _ _ => Stateful.Keeps.pure
    · cases ty with
      | bool => exact Stateful.Keeps.throw
      | uint width => exact Stateful.Keeps.mapM fun given _ after _ => bitEquality_keeps e _ _
      | tuple fields => exact fieldConstraints_keeps e 0 fields sized bits

theorem fieldConstraints_keeps {pool : Pool} (e : ExprId) (index : Nat) (fields : List Ty)
    (sized : pool.Sized → Ty.SizedAll fields) (bits : List (Option Bool)) :
    Build.Keeps (fieldConstraints e index fields bits) pool := by
  cases fields with
  | nil =>
    unfold fieldConstraints
    exact Stateful.Keeps.pure
  | cons field fields =>
    unfold fieldConstraints
    refine (Build.apply_keeps _ _).bind fun component first toComponent => ?_
    refine Stateful.Keeps.ofExcept fun own _ => ?_
    refine (bitConstraints_keeps component field
      (fun later => (sized (toComponent.extension.sized later)).1) _).bind fun parts second toParts => ?_
    have extension := toComponent.extension.trans toParts.extension
    refine (fieldConstraints_keeps e (index + 1) fields
      (fun later => (sized (extension.sized later)).2) _).bind fun rest third _ => ?_
    exact Stateful.Keeps.pure

end

theorem conjunction_keeps (parts : List ExprId) : Build.Keeps (conjunction parts) pool := by
  unfold conjunction
  split
  · exact Stateful.Keeps.pure
  · exact Stateful.Keeps.pure
  · exact (Build.apply_keeps _ _).bind fun _ _ _ => Stateful.Keeps.pure

theorem readVariable_keeps {compiled : Compiled} {model : Array Bool} {generate : Bool} {var : ExprId} :
    Keeps (readVariable compiled model generate var) workspace := by
  unfold readVariable
  refine Stateful.Keeps.get ?_
  dsimp only
  split
  · exact Stateful.Keeps.throw
  · refine Stateful.Keeps.ofExcept fun bits _ => Stateful.Keeps.ofExcept fun ty hasTy => ?_
    refine Stateful.Keeps.ofExcept fun value _ => ?_
    have typed := Pool.ty_eq_ok_iff.mp hasTy
    split
    · exact (ofBuild_keeps (bitConstraints_keeps var ty (fun sized => sized typed) bits)).bind fun parts after _ =>
        Stateful.Keeps.pure
    · exact Stateful.Keeps.pure

theorem invert_keeps {compiled : Compiled} {model : Array Bool} {generate : Bool} :
    Keeps (invert compiled model generate) workspace := by
  unfold invert
  refine (Stateful.Keeps.mapM fun var _ after _ => readVariable_keeps).bind fun readings first _ => ?_
  exact (ofBuild_keeps (conjunction_keeps _)).bind fun _ _ _ => Stateful.Keeps.pure

theorem decide_keeps (engine : Engine) {constraints : List ExprId} {options : SolveOptions}
    (coherent : workspace.Coherent)
    (stored : ∀ constraint ∈ constraints, workspace.pool.Has constraint) :
    Keeps (decide engine constraints options) workspace := by
  refine (compile_keeps coherent stored).bind fun compiled after _ => ?_
  split
  · exact Stateful.Keeps.throw
  · exact Stateful.Keeps.pure
  · exact invert_keeps.bind fun _ _ _ => Stateful.Keeps.pure

end Reading

end Solve

namespace Problem

variable {pool : Pool} {problem result : Problem} {constraint : ExprId}

/-- A constraint is added exactly if it is a boolean and the problem was not
solved. -/
theorem add_eq_ok_iff :
    problem.add pool constraint = .ok result ↔
      problem.status = .unsolved ∧ pool.HasTy constraint .bool ∧
        result = { problem with constraints := problem.constraints ++ [constraint] } := by
  unfold add
  by_cases unsolved : problem.status = .unsolved
  · rw [if_neg (not_not_intro unsolved)]
    simp only [bind_eq_ok_iff, mapError_eq_ok_iff, Pool.ty_eq_ok_iff]
    constructor
    · rintro ⟨ty, hasTy, rest⟩
      split at rest
      · cases rest
      · rename_i isBool
        cases rest
        obtain rfl := Op.isBool_iff.mp (by simpa using isBool)
        exact ⟨unsolved, hasTy, rfl⟩
    · rintro ⟨-, hasTy, rfl⟩
      exact ⟨.bool, hasTy, rfl⟩
  · rw [if_pos unsolved]
    exact iff_of_false nofun fun added => unsolved added.1

/-- Constraints are added to a new problem exactly if they are booleans. -/
theorem addAll_eq_ok_iff {constraints : List ExprId} {options : SolveOptions} :
    constraints.foldlM (fun problem constraint => problem.add pool constraint) (start options) =
        .ok result ↔
      (∀ constraint ∈ constraints, pool.HasTy constraint .bool) ∧
        result = ⟨constraints, options, .unsolved⟩ := by
  have step : ∀ added,
      constraints.foldlM (fun problem constraint => Problem.add problem pool constraint)
        ⟨added, options, .unsolved⟩ = .ok result ↔
        (∀ constraint ∈ constraints, pool.HasTy constraint .bool) ∧
          result = ⟨added ++ constraints, options, .unsolved⟩ := by
    induction constraints with
    | nil => simp [pure, Except.pure, eq_comm]
    | cons constraint rest inductionHypothesis =>
      intro added
      rw [List.foldlM_cons, bind_eq_ok_iff]
      simp only [add_eq_ok_iff, List.forall_mem_cons]
      constructor
      · rintro ⟨middle, ⟨-, hasTy, rfl⟩, others⟩
        obtain ⟨bools, rfl⟩ := (inductionHypothesis _).mp others
        exact ⟨⟨hasTy, bools⟩, by simp⟩
      · rintro ⟨⟨hasTy, bools⟩, rfl⟩
        exact ⟨_, ⟨trivial, hasTy, rfl⟩, (inductionHypothesis _).mpr ⟨bools, by simp⟩⟩
  exact step []

end Problem

namespace Solve

variable {workspace : Workspace PassMemory}

theorem once_keeps (engine : Engine) {constraints : List ExprId} (coherent : workspace.Coherent) :
    Keeps (once engine constraints) workspace := by
  unfold Keeps Stateful.Keeps Stateful.Meets once
  cases added : Problem.ofConstraints workspace.pool constraints with
  | error failure => exact refl workspace
  | ok problem =>
    obtain ⟨bools, rfl⟩ := Problem.addAll_eq_ok_iff.mp added
    exact decide_keeps engine coherent fun constraint member => (bools constraint member).has

theorem enumerate_keeps (engine : Engine) (limit : Nat) {constraints : List ExprId}
    (coherent : workspace.Coherent) : Keeps (enumerate engine limit constraints) workspace := by
  induction limit generalizing constraints workspace with
  | zero => exact Stateful.Keeps.pure
  | succ limit inductionHypothesis =>
    refine (once_keeps engine coherent).bind fun found first toFound => ?_
    split
    · exact Stateful.Keeps.pure
    · split
      · exact Stateful.Keeps.pure
      · refine (ofBuild_keeps (Build.apply_keeps _ _)).bind fun blocked second toBlocked => ?_
        refine (inductionHypothesis (toBlocked.coherent (toFound.coherent coherent))).bind
          fun _ _ _ => ?_
        exact Stateful.Keeps.pure

end Solve

/-- Two variables, their disjunction, and the negation of the first of them. -/
structure Pool.StoresDisjunction (pool : Pool) (x y either denial : ExprId) : Prop where
  first : pool.node? x = some ⟨.bool, .var "x"⟩
  second : pool.node? y = some ⟨.bool, .var "y"⟩
  either : pool.node? either = some ⟨.bool, .apply .or [x, y]⟩
  denial : pool.node? denial = some ⟨.bool, .apply .not [x]⟩

theorem Pool.StoresDisjunction.mono {before after : Pool} {x y either denial : ExprId}
    (stores : before.StoresDisjunction x y either denial) (extension : before.Extends after) :
    after.StoresDisjunction x y either denial :=
  ⟨extension stores.first, extension stores.second, extension stores.either, extension stores.denial⟩

namespace Workspace

/-- One operation on a workspace. Operands and constraints are expressions of the
workspace, and the words in declared types have positive widths. -/
inductive Step (workspace : Workspace PassMemory) : Workspace PassMemory → Prop where
  | var (name : String) {ty : Ty} (sized : ty.Sized) :
      Step workspace ((Walk.ofBuild (Build.var name ty) : Work ExprId).final workspace)
  | truth (value : Bool) :
      Step workspace ((Walk.ofBuild (Build.truth value) : Work ExprId).final workspace)
  | const {ty : Ty} (sized : ty.Sized) (value : Value) :
      Step workspace ((Walk.ofBuild (Build.const ty value) : Work ExprId).final workspace)
  | word (width number : Nat) :
      Step workspace ((Walk.ofBuild (Build.word width number) : Work ExprId).final workspace)
  | apply (op : Op) (operands : List ExprId) :
      Step workspace ((Walk.ofBuild (Build.apply op operands) : Work ExprId).final workspace)
  | pass (pass : Pass) {e : ExprId} (stored : workspace.pool.Has e) :
      Step workspace ((pass.run e).final workspace)
  | normalize {e : ExprId} (stored : workspace.pool.Has e) :
      Step workspace ((Pass.normalize e).final workspace)
  | compile {constraints : List ExprId} (options : SolveOptions)
      (bools : ∀ constraint ∈ constraints, workspace.pool.HasTy constraint .bool) :
      Step workspace ((Solve.compile constraints options).final workspace)
  | solve (engine : Engine) {constraints : List ExprId} (options : SolveOptions)
      (bools : ∀ constraint ∈ constraints, workspace.pool.HasTy constraint .bool) :
      Step workspace ((Solve.decide engine constraints options).final workspace)
  | enumerate (engine : Engine) (limit : Nat) (constraints : List ExprId) :
      Step workspace ((Solve.enumerate engine limit constraints).final workspace)

/-- The workspaces that operations lead to, from one without expressions. -/
inductive Reachable : Workspace PassMemory → Prop where
  | start {bits : Nat} {workspace : Workspace PassMemory} (made : empty? bits = .ok workspace) :
      Reachable workspace
  | step {before after : Workspace PassMemory} (earlier : Reachable before)
      (step : before.Step after) : Reachable after

variable {before after workspace : Workspace PassMemory}

/-- An operation on a coherent workspace advances it. -/
theorem Step.advances (step : before.Step after) (coherent : before.Coherent) :
    before.Advances after := by
  cases step with
  | var name sized => exact (Work.ofBuild_keeps (Build.var_keeps sized)).final
  | truth value => exact (Work.ofBuild_keeps (Build.truth_yields value).keeps).final
  | const sized value => exact (Work.ofBuild_keeps (Build.const_keeps value fun _ => sized)).final
  | word width number => exact (Work.ofBuild_keeps (Build.word_keeps width number)).final
  | apply op operands => exact (Work.ofBuild_keeps (Build.apply_keeps op operands)).final
  | pass pass stored => exact (Pass.run_tries pass coherent stored).keeps.final
  | normalize stored => exact (Pass.normalize_tries coherent stored).keeps.final
  | compile options bools =>
    exact (Solve.compile_keeps coherent fun constraint member => (bools constraint member).has).final
  | solve engine options bools =>
    exact (Solve.decide_keeps engine coherent fun constraint member =>
      (bools constraint member).has).final
  | enumerate engine limit constraints => exact (Solve.enumerate_keeps engine limit coherent).final

theorem sound_of_empty? {bits : Nat} (made : empty? bits = .ok workspace) : workspace.Sound := by
  unfold empty? Pool.empty? at made
  split at made
  · cases made
    exact ⟨⟨Pool.wellTyped_empty bits _, by simp⟩, Pool.sized_empty bits _⟩
  · cases made

/-- Every reachable workspace is sound. -/
theorem Reachable.sound (reachable : workspace.Reachable) : workspace.Sound := by
  induction reachable with
  | start made => exact sound_of_empty? made
  | step _ step inductionHypothesis =>
    exact (step.advances inductionHypothesis.toCoherent).sound inductionHypothesis

/-- An operation that succeeds leads to a workspace with its result. -/
theorem Reachable.exists_built {action : Build ExprId} {done : ExprId → Pool → Prop}
    (reachable : workspace.Reachable)
    (step : workspace.Step ((Walk.ofBuild action : Work ExprId).final workspace))
    (yields : Build.Yields action workspace.pool done) :
    ∃ (after : Workspace PassMemory) (e : ExprId),
      after.Reachable ∧ workspace.pool.Extends after.pool ∧ done e after.pool := by
  obtain ⟨e, after, ended, advances, holds⟩ := (Work.ofBuild_yields yields).exists_ok
  have last : (Walk.ofBuild action : Work ExprId).final workspace = after := by
    rw [Stateful.final, ended]
  exact ⟨after, e, last ▸ .step reachable step, advances.extension, holds⟩

/-- Some reachable workspace has a variable. -/
theorem exists_reachable_variable (name : String) {ty : Ty} (sized : ty.Sized) :
    ∃ (workspace : Workspace PassMemory) (e : ExprId),
      workspace.Reachable ∧ workspace.pool.node? e = some ⟨ty, .var name⟩ := by
  have made : empty? 4 = .ok ⟨.empty 4, ∅⟩ := rfl
  have reachable := Reachable.start made
  have fresh : (Pool.empty 4).declared? name = none := by simp [Pool.empty, Pool.declared?]
  obtain ⟨after, e, afterReachable, -, stored⟩ :=
    reachable.exists_built (.var name sized) (Build.var_yields sized fresh)
  exact ⟨after, e, afterReachable, stored⟩

/-- Some reachable workspace has two boolean variables, declared one after the other. -/
theorem exists_reachable_variables {name other : String} (differ : other ≠ name) :
    ∃ (workspace : Workspace PassMemory) (x y : ExprId), workspace.Reachable ∧
      workspace.pool.node? x = some ⟨.bool, .var name⟩ ∧
        workspace.pool.node? y = some ⟨.bool, .var other⟩ := by
  have made : empty? 4 = .ok ⟨.empty 4, ∅⟩ := rfl
  have fresh : ∀ name, (Pool.empty 4).declared? name = none := by simp [Pool.empty, Pool.declared?]
  have sized : Ty.bool.Sized := trivial
  obtain ⟨first, x, firstReachable, -, xStored, ended⟩ := (Reachable.start made).exists_built
    (.var name sized) (Build.var_yields sized (fresh name)).ran
  have otherFresh : first.pool.declared? other = none :=
    (Build.declared?_eq_of_var ended differ).trans (fresh other)
  obtain ⟨second, y, secondReachable, extension, yStored⟩ :=
    firstReachable.exists_built (.var other sized) (Build.var_yields sized otherFresh)
  exact ⟨second, x, y, secondReachable, extension xStored, yStored⟩

/-- An application of an operator other than a clause can be added. -/
theorem Reachable.exists_apply {op : Op} {operands : List ExprId} {types : List Ty} {ty : Ty}
    (reachable : workspace.Reachable) (operator : op.Types types ty) (notClause : op ≠ .clause)
    (each : List.Forall₂ workspace.pool.HasTy operands types) :
    ∃ (after : Workspace PassMemory) (e : ExprId), after.Reachable ∧
      workspace.pool.Extends after.pool ∧ after.pool.node? e = some ⟨ty, .apply op operands⟩ :=
  reachable.exists_built (.apply op operands)
    (Build.apply_yields ⟨⟨types, each, operator⟩, fun isClause => absurd isClause notClause⟩)

/-- A gate of two stored booleans can be added. -/
theorem Reachable.exists_gate {op : Op} {a b : ExprId} (reachable : workspace.Reachable)
    (operator : op.Types [.bool, .bool] .bool) (notClause : op ≠ .clause)
    (first : workspace.pool.HasTy a .bool) (second : workspace.pool.HasTy b .bool) :
    ∃ (after : Workspace PassMemory) (e : ExprId), after.Reachable ∧
      workspace.pool.Extends after.pool ∧ after.pool.node? e = some ⟨.bool, .apply op [a, b]⟩ :=
  reachable.exists_apply operator notClause (.cons first (.cons second .nil))

/-- The disjunction of two variables and the negation of the first can be added. -/
theorem Reachable.exists_disjunction {x y : ExprId} (reachable : workspace.Reachable)
    (xStored : workspace.pool.node? x = some ⟨.bool, .var "x"⟩)
    (yStored : workspace.pool.node? y = some ⟨.bool, .var "y"⟩) :
    ∃ (after : Workspace PassMemory) (either denial : ExprId), after.Reachable ∧
      after.pool.StoresDisjunction x y either denial := by
  obtain ⟨middle, either, middleReachable, toMiddle, eitherStored⟩ :=
    reachable.exists_gate (.or (by simp) (by simp)) (by simp) ⟨_, xStored⟩ ⟨_, yStored⟩
  obtain ⟨after, denial, afterReachable, toAfter, denialStored⟩ :=
    middleReachable.exists_apply .not (by simp) (.cons ⟨_, toMiddle xStored⟩ .nil)
  exact ⟨after, either, denial, afterReachable,
    ⟨toAfter (toMiddle xStored), toAfter (toMiddle yStored), toAfter eitherStored, denialStored⟩⟩

theorem exists_reachable_disjunction :
    ∃ (workspace : Workspace PassMemory) (x y either denial : ExprId), workspace.Reachable ∧
      workspace.pool.StoresDisjunction x y either denial := by
  obtain ⟨first, x, y, firstReachable, xStored, yStored⟩ :=
    exists_reachable_variables (by decide : "y" ≠ "x")
  obtain ⟨workspace, either, denial, reachable, stores⟩ :=
    firstReachable.exists_disjunction xStored yStored
  exact ⟨workspace, x, y, either, denial, reachable, stores⟩

section Rewriting

variable {e : ExprId} {rewrite : ExprId → Work ExprId}

/-- Every pass, and their combination, gives an expression of the same type that has
the same value wherever the given one has a value. What was remembered before does
not matter. -/
theorem Reachable.rewrite_preserves_value (reachable : workspace.Reachable)
    (stored : workspace.pool.Has e)
    (isPass : rewrite = Pass.normalize ∨ ∃ pass : Pass, rewrite = pass.run) :
    ∃ r after, rewrite e workspace = .ok r after ∧
      (∃ ty, workspace.pool.ty e = .ok ty ∧ after.pool.ty r = .ok ty) ∧
        ∀ env value, workspace.pool.evaluate e env = .ok value →
          after.pool.evaluate e env = .ok value ∧ after.pool.evaluate r env = .ok value := by
  have yields : Work.Yields (rewrite e) workspace fun r after => after.pool.Refines e r := by
    rcases isPass with rfl | ⟨pass, rfl⟩
    · exact (Pass.normalize_yields reachable.sound stored).mono fun _ _ _ result => result.1
    · exact (Pass.run_yields pass reachable.sound stored).mono fun _ _ _ result => result.refines
  obtain ⟨r, after, ended, advances, refines⟩ := yields.exists_ok
  obtain ⟨ty, hasTy, resultTy⟩ := refines.sameTy
  refine ⟨r, after, ended, ⟨ty, ?_, Pool.ty_eq_ok_iff.mpr resultTy⟩, fun env value evaluated => ?_⟩
  · exact Pool.ty_eq_ok_iff.mpr ((advances.extension.hasTy_iff stored).mp hasTy)
  · rw [← advances.extension.evaluate_eq stored] at evaluated
    exact ⟨evaluated, refines.means evaluated⟩

/-- The normal form of `x + x` is six when `x` is three. -/
theorem normalize_preserves_sum : ∃ (workspace : Workspace PassMemory) (e : ExprId),
    workspace.Reachable ∧ workspace.pool.Has e ∧ ∃ r after,
      Pass.normalize e workspace = .ok r after ∧
        after.pool.evaluate r (fun _ => some (.uint 3)) = .ok (.uint 6) := by
  have sized : (Ty.uint 4).Sized := Nat.succ_pos 3
  obtain ⟨first, x, firstReachable, xStored⟩ := exists_reachable_variable "x" sized
  have hasTy : first.pool.HasTy x (.uint 4) := ⟨_, xStored⟩
  have applies : first.pool.Applies (.add 4) [x, x] (.uint 4) :=
    ⟨⟨[.uint 4, .uint 4], .cons hasTy (.cons hasTy .nil), .add (by decide) 4 4⟩, nofun⟩
  obtain ⟨second, e, reachable, extension, stored⟩ :=
    firstReachable.exists_built (.apply (.add 4) [x, x]) (Build.apply_yields applies)
  have isStored : second.pool.Has e := Pool.has_iff.mpr ⟨_, stored⟩
  obtain ⟨r, after, ended, -, means⟩ := reachable.rewrite_preserves_value isStored (.inl rfl)
  refine ⟨second, e, reachable, isStored, r, after, ended, (means _ (.uint 6) ?_).2⟩
  have three : second.pool.evaluate x (fun _ => some (.uint 3)) = .ok (.uint 3) :=
    (Pool.evaluate_var (extension xStored)).mpr ⟨rfl, by decide⟩
  exact (Pool.evaluate_apply stored).mpr ⟨[.uint 3, .uint 3], .cons three (.cons three .nil), by decide⟩

end Rewriting

end Workspace

end Clausal
