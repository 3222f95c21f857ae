import Mathlib
import Clausal.Proofs.OpenBits

/-!
# Enumeration of models

Every model that is found is followed by the demand that its generator be false. So the
cubes of the models are apart from each other, and when no further model is found they
make up all solutions. `Partitions.cons` is the step, and `enumerate_yields` the run.
-/

namespace Clausal

namespace Model

variable {pool : Pool} {constraints : List ExprId} {model : Model} {rest : List Model}
  {whole blocked : ExprId} {env : Env}

/-- The cubes of models consist of solutions and are apart from each other. If the list
of models is complete, they cover all solutions. -/
structure Partitions (models : List Model) (pool : Pool) (constraints : List ExprId)
    (complete : Prop) : Prop where
  assigns : ∀ model ∈ models, model.Assigns pool constraints
  accepts : ∀ model ∈ models, ∀ env, model.Cube pool constraints env →
    ∀ constraint ∈ constraints, pool.Accepts env constraint
  disjoint : models.Pairwise fun first second =>
    ∀ env, first.Cube pool constraints env → ¬second.Cube pool constraints env
  covers : complete → ∀ env,
    (∀ constraint ∈ constraints, pool.Binds env constraint ∧ pool.Accepts env constraint) →
      ∃ model ∈ models, model.Cube pool constraints env

/-- Without models the list is complete only if there are no solutions. -/
theorem Partitions.nil {complete : Prop} (none : complete → ¬pool.Satisfiable constraints) :
    Partitions [] pool constraints complete :=
  ⟨nofun, nofun, .nil, fun isComplete env holds => (none isComplete ⟨env, holds⟩).elim⟩

/-- A model whose bits are all left open has all values in its cube. -/
theorem Partitions.singleton {complete : Prop} (solves : model.Solves pool constraints true)
    (none : model.generator = none) : Partitions [model] pool constraints complete := by
  have agrees : ∀ env, model.Agrees pool env := by
    intro env binding member ty value hasTy given index inside closed
    exact (closed ((solves.none_iff rfl).mp none binding member ty hasTy index inside)).elim
  refine ⟨by simpa using solves.assigns, by simpa using solves.accepts,
    List.pairwise_singleton _ _, fun _ env holds => ?_⟩
  exact ⟨model, List.mem_cons_self, fun constraint member => (holds constraint member).1, agrees env⟩

section Blocking

variable (generator : model.Generator pool constraints whole)
  (stored : pool.node? blocked = some ⟨.bool, .apply .not [whole]⟩)
include generator stored

/-- What is blocked has no variables of its own. -/
theorem Generator.exists_reaches {x : ExprId} (reaches : pool.Reaches blocked x)
    (isVariable : pool.isVariable x) : ∃ constraint ∈ constraints, pool.Reaches constraint x := by
  have differ : x ≠ blocked := fun same => Solve.not_isVariable_of_apply stored (same ▸ isVariable)
  obtain ⟨operand, member, further⟩ := reaches.exists_operand stored differ
  rw [List.mem_singleton.mp member] at further
  exact generator.reaches x further isVariable

theorem Generator.binds_iff :
    (∀ constraint ∈ constraints ++ [blocked], pool.Binds env constraint) ↔
      ∀ constraint ∈ constraints, pool.Binds env constraint := by
  constructor
  · exact fun bound constraint member => bound constraint (List.mem_append_left _ member)
  · intro bound
    refine List.forall_mem_append.mpr ⟨bound, ?_⟩
    rintro _ (_ | ⟨_, ⟨⟩⟩) x ty name reaches isStored
    have isVariable := Pool.isVariable_iff.mpr ⟨ty, name, isStored⟩
    obtain ⟨constraint, member, reached⟩ := generator.exists_reaches stored reaches isVariable
    exact bound constraint member reached isStored

/-- The negated generator is true exactly outside of the cube. -/
theorem Generator.accepts_iff (bound : ∀ constraint ∈ constraints, pool.Binds env constraint) :
    pool.Accepts env blocked ↔ ¬model.Agrees pool env := by
  obtain ⟨truth, evaluated, means⟩ := generator.means env bound
  have opposite : pool.evaluate blocked env = .ok (.bool !truth) :=
    (Pool.evaluate_apply stored).mpr ⟨[.bool truth], .cons evaluated .nil, rfl⟩
  rw [Pool.Accepts, opposite, ← means]
  cases truth <;> simp

/-- The demand to differ from a model does not change the cubes of other models. -/
theorem Generator.cube_iff {other : Model} :
    other.Cube pool (constraints ++ [blocked]) env ↔ other.Cube pool constraints env :=
  and_congr_left' (generator.binds_iff stored)

theorem Generator.assigns {other : Model} (assigns : other.Assigns pool (constraints ++ [blocked])) :
    other.Assigns pool constraints := by
  refine ⟨assigns.nodup, fun x => ?_, assigns.valid⟩
  rw [assigns.vars]
  refine and_congr_left fun isVariable => ?_
  constructor
  · rintro ⟨constraint, member, reaches⟩
    rcases List.mem_append.mp member with inside | last
    · exact ⟨constraint, inside, reaches⟩
    · rw [List.mem_singleton.mp last] at reaches
      exact generator.exists_reaches stored reaches isVariable
  · rintro ⟨constraint, member, reaches⟩
    exact ⟨constraint, List.mem_append_left _ member, reaches⟩

/-- A model goes in front of the models that differ from it. -/
theorem Partitions.cons {complete : Prop} (solves : model.Solves pool constraints true)
    (others : Partitions rest pool (constraints ++ [blocked]) complete) :
    Partitions (model :: rest) pool constraints complete := by
  have same : ∀ {other : Model} {env : Env},
      other.Cube pool (constraints ++ [blocked]) env ↔ other.Cube pool constraints env :=
    generator.cube_iff stored
  refine ⟨List.forall_mem_cons.mpr ⟨solves.assigns, fun other member => ?_⟩,
    List.forall_mem_cons.mpr ⟨solves.accepts, fun other member env cube constraint inside => ?_⟩,
    List.pairwise_cons.mpr ⟨fun other member env cube otherCube => ?_, ?_⟩, fun isComplete env holds => ?_⟩
  · exact generator.assigns stored (others.assigns other member)
  · exact others.accepts other member env (same.mpr cube) constraint (List.mem_append_left _ inside)
  · have differs := others.accepts other member env (same.mpr otherCube) blocked (by simp)
    exact (generator.accepts_iff stored cube.1).mp differs cube.2
  · exact others.disjoint.imp fun apart env cube otherCube =>
      apart env (same.mpr cube) (same.mpr otherCube)
  · have bound : ∀ constraint ∈ constraints, pool.Binds env constraint :=
      fun constraint member => (holds constraint member).1
    by_cases agrees : model.Agrees pool env
    · exact ⟨model, List.mem_cons_self, bound, agrees⟩
    · have allBound := (generator.binds_iff stored).mpr bound
      have accepts : ∀ constraint ∈ constraints ++ [blocked], pool.Accepts env constraint := by
        refine List.forall_mem_append.mpr ⟨fun constraint member => (holds constraint member).2, ?_⟩
        rintro _ (_ | ⟨_, ⟨⟩⟩)
        exact (generator.accepts_iff stored bound).mpr agrees
      obtain ⟨other, member, cube⟩ := others.covers isComplete env fun constraint inside =>
        ⟨allBound constraint inside, accepts constraint inside⟩
      exact ⟨other, List.mem_cons_of_mem model member, same.mp cube⟩

end Blocking

end Model

namespace Solve

variable {workspace : Workspace PassMemory} {constraints : List ExprId} {engine : Engine} {limit : Nat}

/-- The lists of constraints that are solved one after the other, each with the workspace
in which it is solved. -/
def rounds (engine : Engine) : Nat → List ExprId → Workspace PassMemory →
    List (List ExprId × Workspace PassMemory)
  | 0, _, _ => []
  | limit + 1, constraints, workspace =>
    (constraints, workspace) ::
      match once engine constraints workspace with
      | .ok (some model) found =>
        match model.generator with
        | some generator =>
          match ofBuild (Build.not generator) found with
          | .ok blocked after => rounds engine limit (constraints ++ [blocked]) after
          | .error _ _ => []
        | none => []
      | _ => []

/-- After a model is blocked, the enumeration goes on. -/
theorem mem_rounds_iff_of_blocked {model : Model} {found after : Workspace PassMemory}
    {whole blocked : ExprId} {round : List ExprId × Workspace PassMemory}
    (ended : once engine constraints workspace = .ok (some model) found)
    (isGenerator : model.generator = some whole)
    (built : ofBuild (Build.not whole) found = .ok blocked after) :
    round ∈ rounds engine (limit + 1) constraints workspace ↔
      round = (constraints, workspace) ∨ round ∈ rounds engine limit (constraints ++ [blocked]) after := by
  rw [rounds, List.mem_cons, ended]
  dsimp only
  rw [isGenerator]
  dsimp only
  rw [built]

theorem mem_rounds_one_iff {round : List ExprId × Workspace PassMemory} :
    round ∈ rounds engine 1 constraints workspace ↔ round = (constraints, workspace) := by
  unfold rounds
  rw [List.mem_cons, or_iff_left]
  split
  · split
    · split
      · exact List.not_mem_nil
      · exact List.not_mem_nil
    · exact List.not_mem_nil
  · exact List.not_mem_nil

/-- Boolean constraints are solved as a standard problem. -/
theorem once_eq (bools : ∀ constraint ∈ constraints, workspace.pool.HasTy constraint .bool) :
    once engine constraints workspace = decide engine constraints .standard workspace := by
  have added : Problem.ofConstraints workspace.pool constraints =
      .ok ⟨constraints, .standard, .unsolved⟩ := Problem.addAll_eq_ok_iff.mpr ⟨bools, rfl⟩
  unfold once
  rw [added]
  rfl

/-- The models that are enumerated partition the solutions. -/
theorem enumerate_yields (sound : workspace.Sound)
    (bools : ∀ constraint ∈ constraints, workspace.pool.HasTy constraint .bool)
    (manageable : ∀ round ∈ rounds engine limit constraints workspace,
      allocated round.1 .standard round.2 < 2 ^ 31 ∧
        ∀ compiled after, compile round.1 .standard round.2 = .ok compiled after →
          engine.Decides compiled.cnf) :
    Yields (enumerate engine limit constraints) workspace fun models after =>
      models.length ≤ limit ∧
        Model.Partitions models after.pool constraints (models.length < limit) := by
  induction limit generalizing constraints workspace with
  | zero =>
    exact Stateful.Yields.pure ⟨le_rfl, .nil fun impossible => absurd impossible (lt_irrefl 0)⟩
  | succ limit inductionHypothesis =>
    obtain ⟨small, decides⟩ := manageable (constraints, workspace) List.mem_cons_self
    obtain ⟨outcome, found, ended, advances, none, solves⟩ :=
      (decide_yields sound bools small decides).exists_ok
    rw [← once_eq bools] at ended
    have foundSound := advances.sound sound
    have stored : ∀ constraint ∈ constraints, found.pool.Has constraint :=
      fun constraint member => advances.extension.has (bools constraint member).has
    unfold enumerate
    refine (Stateful.Yields.of_ok ended advances).bind ?_
    rintro outcome found _ ⟨rfl, rfl⟩
    cases outcome with
    | none => exact Stateful.Yields.pure ⟨Nat.zero_le _, .nil fun _ => none.mp rfl⟩
    | some model =>
      have solved := solves model rfl
      cases isGenerator : model.generator with
      | none =>
        simp only [isGenerator]
        exact Stateful.Yields.pure ⟨Nat.succ_le_succ (Nat.zero_le limit), .singleton solved isGenerator⟩
      | some whole =>
        simp only [isGenerator]
        have generator := solved.generates rfl whole isGenerator
        have applies : found.pool.Applies .not [whole] .bool :=
          ⟨⟨[.bool], .cons generator.isBool .nil, .not⟩, nofun⟩
        obtain ⟨blocked, middle, built, toBlocked, isBlocked⟩ :=
          (ofBuild_yields (Build.apply_yields applies)).exists_ok
        refine (Stateful.Yields.of_ok built toBlocked).bind ?_
        rintro blocked middle _ ⟨rfl, rfl⟩
        have later : ∀ round ∈ rounds engine limit (constraints ++ [blocked]) middle,
            round ∈ rounds engine (limit + 1) constraints workspace := by
          exact fun round member => (mem_rounds_iff_of_blocked ended isGenerator built).mpr (.inr member)
        have allBools : ∀ constraint ∈ constraints ++ [blocked], middle.pool.HasTy constraint .bool := by
          refine List.forall_mem_append.mpr ⟨fun constraint member => ?_, ?_⟩
          · exact toBlocked.extension.hasTy (advances.extension.hasTy (bools constraint member))
          · rintro _ (_ | ⟨_, ⟨⟩⟩)
            exact ⟨_, isBlocked⟩
        refine (inductionHypothesis (toBlocked.sound foundSound) allBools fun round member =>
          manageable round (later round member)).bind fun rest last toLast partitions => ?_
        obtain ⟨atMost, others⟩ := partitions
        have extension := toBlocked.extension.trans toLast.extension
        have lastSolved := solved.extend extension stored
        have cons := Model.Partitions.cons (lastSolved.generates rfl whole isGenerator)
          (toLast.extension isBlocked) lastSolved others
        refine Stateful.Yields.pure ⟨by simpa using atMost, ?_⟩
        simpa using cons

section Choice

variable {workspace : Workspace PassMemory} {yes x y choice denial whole blocked : ExprId}

/-- The negation of the generator of the choice is prepared by negating the first
variable. -/
theorem derivesAll_blocked (sound : workspace.Sound)
    (first : workspace.pool.node? x = some ⟨.bool, .var "x"⟩)
    (isDenial : workspace.pool.node? denial = some ⟨.bool, .apply .not [x]⟩)
    (equates : Equates workspace.pool x .bool (.bool true) whole)
    (isBlocked : workspace.pool.node? blocked = some ⟨.bool, .apply .not [whole]⟩) :
    Pass.DerivesAll Pass.preparation (workspace.pool.tree blocked) (workspace.pool.tree denial) := by
  obtain ⟨constant, isConstant, isWhole⟩ := equates
  have typed := sound.typed
  have has : workspace.pool.Has x := Pool.has_iff.mpr ⟨_, first⟩
  have known : Rules.simplification workspace.pool .eq [x, constant] = .ok (some (.known x)) :=
    Rules.simplification_eq_true ((Rules.isBoolean_iff ⟨_, first⟩).mpr rfl) (by simp [Pool.constant?, first])
      (by simp [Pool.truth?, isConstant])
  have self := (Pool.settled_var first).derives typed has
  have differ : x ≠ whole := by
    rintro rfl
    simp [first] at isWhole
  have constantSelf := (Pool.settled_leaf (by simp [Pool.op?, isConstant, Node.op?])).derives typed
    (Pool.has_iff.mpr ⟨_, isConstant⟩)
  have compared := Pool.derives_known typed isWhole rfl known differ has (by simp [self, constantSelf]) self
  have simplified := Pool.derives_operands typed isBlocked isDenial (.cons compared .nil)
    (Rules.simplification_not (Rules.stands_var first : Rules.Stands _ .and _))
  exact .cons simplified
    (Pass.derivesAll_of_rigid sound (.negation isDenial (.var first)) (Pool.has_iff.mpr ⟨_, isDenial⟩) _)

/-- The choice and the demand that it be solved in another way need few variables. -/
theorem allocated_blocked_le (options : SolveOptions) (sound : workspace.Sound)
    (stores : workspace.pool.StoresChoice yes x y choice)
    (isDenial : workspace.pool.node? denial = some ⟨.bool, .apply .not [x]⟩)
    (equates : Equates workspace.pool x .bool (.bool true) whole)
    (isBlocked : workspace.pool.node? blocked = some ⟨.bool, .apply .not [whole]⟩) :
    allocated [choice, blocked] options workspace ≤ 6 := by
  have prepared : ∀ constraint ∈ [choice, blocked], ∃ prepared,
      Pass.DerivesAll Pass.preparation (workspace.pool.tree constraint) prepared ∧ prepared.demand ≤ 2 := by
    have few : (workspace.pool.tree x).demand ≤ 2 ∧ (workspace.pool.tree denial).demand ≤ 2 := by
      simp [Pool.tree_apply isDenial, Pool.tree_var stores.first, Tree.demand, Tree.demands, Op.gates,
        Ty.bitSize]
    simp only [List.forall_mem_cons]
    exact ⟨⟨_, derivesAll_choice sound stores, few.1⟩,
      ⟨_, derivesAll_blocked sound stores.first isDenial equates isBlocked, few.2⟩, by simp⟩
  have has : ∀ constraint ∈ [choice, blocked], workspace.pool.Has constraint := by
    simp [Pool.has_iff, stores.choice, isBlocked]
  have bound := allocated_le sound.toCoherent options has prepared
  have few : total (fun var => (workspace.pool.tree var).demand)
      (workspace.pool.variablesOf [choice, blocked]) ≤
        total (fun var => (workspace.pool.tree var).demand) [x, y] := by
    refine total_le_of_subset (Pool.nodup_variablesOf _ _) fun z member => ?_
    obtain ⟨⟨constraint, inside, reaches⟩, isVariable⟩ := Pool.mem_variablesOf_iff.mp member
    rw [List.mem_pair, ← stores.mem_variables_iff]
    refine ⟨?_, isVariable⟩
    rcases List.mem_pair.mp inside with rfl | rfl
    · exact reaches
    · have differ : z ≠ constraint := fun same => not_isVariable_of_apply isBlocked (same ▸ isVariable)
      obtain ⟨operand, isOperand, further⟩ := reaches.exists_operand isBlocked differ
      rw [List.mem_singleton.mp isOperand] at further
      exact .of_operand stores.choice (by simp [Node.operands, Form.operands])
        ((pins_equality equates).reaches whole (by simp) z further isVariable)
  simp [Pool.tree_var stores.first, Pool.tree_var stores.second, Tree.demand, Ty.bitSize] at bound few
  omega

/-- The choice cannot be solved in another way. -/
theorem not_satisfiable_blocked {pool : Pool} (stores : pool.StoresChoice yes x y choice)
    (equates : Equates pool x .bool (.bool true) whole)
    (isBlocked : pool.node? blocked = some ⟨.bool, .apply .not [whole]⟩) :
    ¬pool.Satisfiable [choice, blocked] := by
  rintro ⟨env, holds⟩
  simp only [List.forall_mem_cons] at holds
  obtain ⟨⟨bound, chosen⟩, ⟨-, refused⟩, -⟩ := holds
  obtain ⟨first, isFirst, firstBool⟩ := bound (stores.mem_variables_iff.mpr (.inl rfl)).1 stores.first
  obtain ⟨second, isSecond, secondBool⟩ := bound (stores.mem_variables_iff.mpr (.inr rfl)).1 stores.second
  obtain ⟨a, rfl⟩ := Ty.admits_bool_iff.mp firstBool
  obtain ⟨b, rfl⟩ := Ty.admits_bool_iff.mp secondBool
  obtain rfl : a = true := by
    rw [Pool.Accepts, stores.evaluate_eq isFirst isSecond] at chosen
    simpa using chosen
  have compared := equates.evaluate_eq ((Pool.evaluate_var stores.first).mpr ⟨isFirst, rfl⟩)
  have opposite : pool.evaluate blocked env = .ok (.bool false) :=
    (Pool.evaluate_apply isBlocked).mpr ⟨_, .cons compared .nil, rfl⟩
  cases opposite.symm.trans refused

/-- Two models of the choice are asked for, and there is one. -/
theorem enumerate_choice (sound : workspace.Sound) (stores : workspace.pool.StoresChoice yes x y choice)
    (isDenial : workspace.pool.node? denial = some ⟨.bool, .apply .not [x]⟩) :
    (∀ round ∈ rounds Engine.exhaustive 2 [choice] workspace,
      allocated round.1 .standard round.2 < 2 ^ 31) ∧
      ∃ model after, enumerate Engine.exhaustive 2 [choice] workspace = .ok [model] after := by
  have bools : ∀ constraint ∈ [choice], workspace.pool.HasTy constraint .bool := by
    simpa using stores.hasTy
  obtain ⟨model, found, ended⟩ := exists_decide_choice .standard sound stores
  obtain ⟨advances, -, whole, isWhole, equates⟩ := decide_choice sound stores rfl
    (fun compiled _ _ _ => (Engine.exhaustive_decides compiled.cnf).eval_eq) ended
  have applies : found.pool.Applies .not [whole] .bool := by
    obtain ⟨constant, -, isEquality⟩ := equates
    exact ⟨⟨[.bool], .cons ⟨_, isEquality⟩ .nil, .not⟩, by simp⟩
  obtain ⟨blocked, after, built, toBlocked, isBlocked⟩ :=
    (ofBuild_yields (Build.apply_yields applies)).exists_ok
  have toAfter := advances.extension.trans toBlocked.extension
  have afterSound := toBlocked.sound (advances.sound sound)
  have laterEquates := equates.mono toBlocked.extension
  have small : allocated [choice, blocked] .standard after < 2 ^ 31 :=
    (allocated_blocked_le .standard afterSound (stores.mono toAfter) (toAfter isDenial) laterEquates
      isBlocked).trans_lt (by decide)
  have laterBools : ∀ constraint ∈ [choice, blocked], after.pool.HasTy constraint .bool := by
    simpa using ⟨(stores.mono toAfter).hasTy, ⟨_, isBlocked⟩⟩
  obtain ⟨outcome, last, lastEnded, further, none, -⟩ := (decide_yields afterSound laterBools small
    fun compiled _ _ => Engine.exhaustive_decides compiled.cnf).exists_ok
  obtain rfl : outcome = Option.none := by
    rw [none, further.extension.satisfiable_iff fun constraint member => (laterBools constraint member).has]
    exact not_satisfiable_blocked (stores.mono toAfter) laterEquates isBlocked
  rw [← once_eq bools] at ended
  rw [← once_eq laterBools] at lastEnded
  constructor
  · intro round member
    rcases (mem_rounds_iff_of_blocked ended isWhole built).mp member with rfl | second
    · exact (allocated_choice_le .standard sound stores).trans_lt (by decide)
    · rw [mem_rounds_one_iff.mp second]
      exact small
  · have rest : enumerate Engine.exhaustive 1 ([choice] ++ [blocked]) after = .ok [] last :=
      Stateful.bind_eq_ok.mpr ⟨_, _, lastEnded, rfl⟩
    refine ⟨model, last, Stateful.bind_eq_ok.mpr ⟨_, _, ended, ?_⟩⟩
    simp only [isWhole]
    exact Stateful.bind_eq_ok.mpr ⟨_, _, built, Stateful.bind_eq_ok.mpr ⟨_, _, rest, rfl⟩⟩

end Choice

end Solve

namespace Workspace

variable {workspace : Workspace PassMemory} {constraints : List ExprId} {engine : Engine} {limit : Nat}

/-- With an engine that decides every formula it is given, the enumeration succeeds and
its models partition the solutions: there are at most as many models as were asked for,
all values in their cubes make the constraints true, the cubes of different models are
apart, and if there are fewer models than were asked for, their cubes are all solutions. -/
theorem Reachable.enumerate_partitions (reachable : workspace.Reachable)
    (bools : ∀ constraint ∈ constraints, workspace.pool.HasTy constraint .bool)
    (manageable : ∀ round ∈ Solve.rounds engine limit constraints workspace,
      Solve.allocated round.1 .standard round.2 < 2 ^ 31 ∧
        ∀ compiled after, Solve.compile round.1 .standard round.2 = .ok compiled after →
          engine.Decides compiled.cnf) :
    ∃ models after, Solve.enumerate engine limit constraints workspace = .ok models after ∧
      workspace.pool.Extends after.pool ∧ models.length ≤ limit ∧
      (∀ model ∈ models, model.Assigns after.pool constraints) ∧
      (∀ model ∈ models, ∀ env, model.Cube after.pool constraints env →
        ∀ constraint ∈ constraints, after.pool.Accepts env constraint) ∧
      models.Pairwise (fun first second =>
        ∀ env, first.Cube after.pool constraints env → ¬second.Cube after.pool constraints env) ∧
      (models.length < limit → ∀ env, (∃ model ∈ models, model.Cube after.pool constraints env) ↔
        ∀ constraint ∈ constraints, after.pool.Binds env constraint ∧ after.pool.Accepts env constraint) := by
  obtain ⟨models, after, ended, advances, atMost, partitions⟩ :=
    (Solve.enumerate_yields reachable.sound bools manageable).exists_ok
  refine ⟨models, after, ended, advances.extension, atMost, partitions.assigns, partitions.accepts,
    partitions.disjoint, fun isComplete env => ⟨?_, partitions.covers isComplete env⟩⟩
  rintro ⟨model, member, cube⟩ constraint inside
  exact ⟨cube.1 constraint inside, partitions.accepts model member env cube constraint inside⟩

/-- Of a choice by a constant two models are asked for. The negation of the generator of the
first one is refused, so its cube is all solutions. -/
theorem enumerate_partitions_choice :
    ∃ (workspace : Workspace PassMemory) (yes x y choice : ExprId), workspace.Reachable ∧
      workspace.pool.StoresChoice yes x y choice ∧
      (∀ constraint ∈ [choice], workspace.pool.HasTy constraint .bool) ∧
      (∀ round ∈ Solve.rounds Engine.exhaustive 2 [choice] workspace,
        Solve.allocated round.1 .standard round.2 < 2 ^ 31 ∧
          ∀ compiled after, Solve.compile round.1 .standard round.2 = .ok compiled after →
            Engine.exhaustive.Decides compiled.cnf) ∧
      ∃ model after, Solve.enumerate Engine.exhaustive 2 [choice] workspace = .ok [model] after ∧
        ∀ env, model.Cube after.pool [choice] env ↔
          after.pool.Binds env choice ∧ after.pool.Accepts env choice := by
  obtain ⟨first, yes, x, y, choice, firstReachable, firstStores⟩ := exists_reachable_choice
  obtain ⟨workspace, denial, reachable, extension, isDenial⟩ :=
    firstReachable.exists_apply .not (by simp) (.cons ⟨_, firstStores.first⟩ .nil)
  have stores := firstStores.mono extension
  have bools : ∀ constraint ∈ [choice], workspace.pool.HasTy constraint .bool := by
    simpa using stores.hasTy
  obtain ⟨small, model, last, ended⟩ := Solve.enumerate_choice reachable.sound stores isDenial
  have manageable : ∀ round ∈ Solve.rounds Engine.exhaustive 2 [choice] workspace,
      Solve.allocated round.1 .standard round.2 < 2 ^ 31 ∧
        ∀ compiled after, Solve.compile round.1 .standard round.2 = .ok compiled after →
          Engine.exhaustive.Decides compiled.cnf :=
    fun round member => ⟨small round member, fun compiled _ _ => Engine.exhaustive_decides compiled.cnf⟩
  obtain ⟨models, after, isEnumerated, -, -, -, -, -, covers⟩ :=
    reachable.enumerate_partitions bools manageable
  cases isEnumerated.symm.trans ended
  refine ⟨workspace, yes, x, y, choice, reachable, stores, bools, manageable, model, last, ended, ?_⟩
  simpa using covers (by simp)

end Workspace

end Clausal
