import Mathlib
import Clausal.Proofs.Cubes
import Clausal.Proofs.Demand

/-!
# Solving problems

Accepted constraints compile, and their formula has a model exactly if some values of
the variables make all constraints true. With an engine that decides the formula,
solving therefore finds a model or reports rightly that there is none.
-/

namespace Clausal

namespace Pool

/-- Some values of the variables of constraints make all constraints true. -/
def Satisfiable (pool : Pool) (constraints : List ExprId) : Prop :=
  ∃ env, ∀ constraint ∈ constraints, pool.Binds env constraint ∧ pool.Accepts env constraint

theorem Extends.satisfiable_iff {before after : Pool} {constraints : List ExprId}
    (extension : before.Extends after) (stored : ∀ constraint ∈ constraints, before.Has constraint) :
    after.Satisfiable constraints ↔ before.Satisfiable constraints := by
  refine exists_congr fun env => forall₂_congr fun constraint member => ?_
  rw [extension.binds_iff (stored constraint member), Accepts, Accepts,
    extension.evaluate_eq (stored constraint member)]

theorem StoresDisjunction.satisfiable {pool : Pool} {x y either denial : ExprId}
    (stores : pool.StoresDisjunction x y either denial) : pool.Satisfiable [either, denial] := by
  have stored : ∀ constraint ∈ [either, denial], pool.Has constraint := by
    simp [has_iff, stores.either, stores.denial]
  have accepts : ∀ constraint ∈ [either, denial],
      pool.Accepts (fun name => some (.bool (name = "y"))) constraint :=
    stores.accepts_iff.mpr ⟨rfl, rfl⟩
  exact ⟨_, fun constraint member =>
    ⟨binds_of_evaluate (stored constraint member) (accepts constraint member), accepts constraint member⟩⟩

end Pool

namespace Solve

variable {workspace middle after : Workspace PassMemory} {compiled : Compiled} {pool : Pool}
  {constraints : List ExprId} {options : SolveOptions} {engine : Engine} {model : Array Bool}

/-- The formula of constraints has a model exactly if the constraints can be true. -/
theorem Compiles.exists_models_iff (compiles : Compiles compiled pool constraints)
    (typed : pool.WellTyped) (stored : ∀ constraint ∈ constraints, pool.Has constraint) :
    (∃ model, compiled.cnf.Models model) ↔ pool.Satisfiable constraints := by
  constructor
  · rintro ⟨model, size, holds⟩
    obtain ⟨truth, carries⟩ := compiles.dense.exists_assignment
      (by rw [size, compiles.numVars_eq]; exact Nat.lt_succ_self _)
    have satisfied := (compiles.eval_iff carries).mp holds
    have agrees := compiles.exact.agrees_readBack typed truth
    have accepts := compiles.exact.sound truth _ satisfied agrees
    refine ⟨compiled.session.readBack pool truth, fun constraint member =>
      ⟨compiles.exact.binds (fun x reaches isVariable => ?_) fun entry entryMember => ?_,
        accepts constraint member⟩⟩
    · exact compiles.lowered x ((compiles.surface x).mpr ⟨⟨constraint, member, reaches⟩, isVariable⟩)
    · obtain ⟨ty, represents⟩ := compiles.exact.represents_surface entryMember
      exact ⟨_, agrees entry entryMember ty represents.hasTy⟩
  · rintro ⟨env, holds⟩
    exact compiles.exists_models typed stored (fun constraint member => (holds constraint member).1)
      fun constraint member => (holds constraint member).2

/-- An engine's model is read back as a model of the constraints. -/
theorem Compiles.invert_yields_solves (compiles : Compiles compiled workspace.pool constraints)
    (sound : workspace.Sound) (stored : ∀ constraint ∈ constraints, workspace.pool.Has constraint)
    (generate : Bool) (size : compiled.cnf.numVars < model.size)
    (holds : compiled.cnf.eval model = .ok true) :
    Yields (invert compiled model generate) workspace fun found after =>
      found.Solves after.pool constraints generate := by
  obtain ⟨truth, carries⟩ := compiles.dense.exists_assignment (compiles.numVars_eq ▸ size)
  refine (invert_yields generate sound compiles carries).mono fun found after advances inverts => ?_
  have later := compiles.extend advances.extension stored
  have laterStored : ∀ constraint ∈ constraints, after.pool.Has constraint :=
    fun constraint member => advances.extension.has (stored constraint member)
  exact inverts.solves later.nodup later.surface fun env =>
    later.accepts_of_completes (advances.sound sound).typed laterStored carries holds

/-- With an engine that decides its formula, constraints are decided. -/
theorem decide_yields (sound : workspace.Sound)
    (bools : ∀ constraint ∈ constraints, workspace.pool.HasTy constraint .bool)
    (small : allocated constraints options workspace < 2 ^ 31)
    (decides : ∀ compiled after, compile constraints options workspace = .ok compiled after →
      engine.Decides compiled.cnf) :
    Yields (decide engine constraints options) workspace fun outcome after =>
      (outcome = none ↔ ¬after.pool.Satisfiable constraints) ∧
        ∀ found ∈ outcome, found.Solves after.pool constraints options.generator := by
  obtain ⟨compiled, middle, ended, advances, compiles⟩ := (compile_yields sound bools small).exists_ok
  have middleSound := advances.sound sound
  have stored : ∀ constraint ∈ constraints, middle.pool.Has constraint :=
    fun constraint member => advances.extension.has (bools constraint member).has
  have possible := compiles.exists_models_iff middleSound.typed stored
  have decided := decides compiled middle ended
  refine (Stateful.Yields.of_ok ended advances).bind ?_
  rintro compiled middle _ ⟨rfl, rfl⟩
  by_cases satisfiable : ∃ model, compiled.cnf.Models model
  · obtain ⟨model, answer, size, holds⟩ := decided.sat satisfiable
    rw [answer]
    refine (compiles.invert_yields_solves middleSound stored options.generator
      (by rw [size]; exact Nat.lt_succ_self _) holds).bind fun found after further solves => ?_
    refine Stateful.Yields.pure ⟨iff_of_false nofun (not_not_intro ?_), ?_⟩
    · exact (further.extension.satisfiable_iff stored).mpr (possible.mp satisfiable)
    · rintro _ ⟨⟩
      exact solves
  · rw [decided.unsat satisfiable]
    exact Stateful.Yields.pure ⟨iff_of_true rfl (possible.not.mp satisfiable), nofun⟩

section Padding

variable {extra : Array Bool} {generate : Bool} {x : ExprId}

theorem litTruth_append {numbering : Numbering} {lit : Lit} {bit : Option Bool}
    (read : litTruth numbering model lit = .ok bit) :
    litTruth numbering (model ++ extra) lit = .ok bit := by
  unfold litTruth at read ⊢
  split at read
  · exact read
  · split at read
    · rename_i found
      rwa [Cnf.getElem?_append_of_some found]
    · cases read

/-- What is read from a model is read from a longer one. -/
theorem readVariable_append {reading : Reading}
    (ended : readVariable compiled model generate x workspace = .ok reading after) :
    readVariable compiled (model ++ extra) generate x workspace = .ok reading after := by
  unfold readVariable at ended ⊢
  obtain ⟨_, _, ⟨⟩, ended⟩ := Stateful.bind_eq_ok.mp ended
  refine Stateful.bind_eq_ok.mpr ⟨_, _, rfl, ?_⟩
  dsimp only at ended ⊢
  cases found : compiled.session.literals[x]? with
  | none =>
    rw [found] at ended
    cases ended
  | some lits =>
    rw [found] at ended
    obtain ⟨bits, _, read, ended⟩ := Stateful.bind_eq_ok.mp ended
    obtain ⟨each, rfl⟩ := Stateful.ofExcept_eq_ok.mp read
    have longer : lits.toList.mapM (litTruth compiled.numbering (model ++ extra)) = .ok bits :=
      mapM_eq_ok_iff.mpr ((mapM_eq_ok_iff.mp each).imp fun _ _ => litTruth_append)
    exact Stateful.bind_eq_ok.mpr ⟨bits, _, Stateful.ofExcept_eq_ok.mpr ⟨longer, rfl⟩, ended⟩

theorem invert_append {found : Model}
    (ended : invert compiled model generate workspace = .ok found after) :
    invert compiled (model ++ extra) generate workspace = .ok found after := by
  obtain ⟨readings, middle, read, ended⟩ := Stateful.bind_eq_ok.mp ended
  refine Stateful.bind_eq_ok.mpr ⟨readings, middle, ?_, ended⟩
  exact Stateful.Approximates.mapM (fun _ _ _ _ _ => readVariable_append) read

end Padding

/-- Constraints for which a model is found were compiled, and the model was read from
the engine's. -/
theorem exists_invert_of_decide {found : Model}
    (ended : decide engine constraints options workspace = .ok (some found) after) :
    ∃ compiled middle model, compile constraints options workspace = .ok compiled middle ∧
      engine compiled.cnf = .ok (some model) ∧
        invert compiled model options.generator middle = .ok found after := by
  obtain ⟨compiled, middle, isCompiled, ended⟩ := Stateful.bind_eq_ok.mp ended
  refine ⟨compiled, middle, ?_⟩
  cases answer : engine compiled.cnf with
  | error failure =>
    rw [answer] at ended
    cases ended
  | ok outcome =>
    rw [answer] at ended
    cases outcome with
    | none => cases ended
    | some model =>
      obtain ⟨other, last, inverted, ended⟩ := Stateful.bind_eq_ok.mp ended
      cases ended
      exact ⟨model, isCompiled, rfl, inverted⟩

section Reading

variable {found : Model} (sound : workspace.Sound)
  (bools : ∀ constraint ∈ constraints, workspace.pool.HasTy constraint .bool)
  (small : allocated constraints options workspace < 2 ^ 31)
  (satisfies : ∀ compiled middle model, compile constraints options workspace = .ok compiled middle →
    engine compiled.cnf = .ok (some model) → compiled.cnf.eval model = .ok true)
  (ended : decide engine constraints options workspace = .ok (some found) after)
include sound bools small satisfies ended

/-- A model that is found is made from the bits that some model of the formula determines.
The engine's model need not have an entry for every variable. -/
theorem exists_inverts_of_decide : workspace.Advances after ∧
    ∃ compiled middle model truth, compile constraints options workspace = .ok compiled middle ∧
      Compiles compiled after.pool constraints ∧ compiled.numbering.Carries model truth ∧
        compiled.cnf.eval model = .ok true ∧
          Inverts after.pool compiled.surface (knownBits compiled truth) options.generator found := by
  obtain ⟨compiled, middle, model, isCompiled, answer, inverted⟩ := exists_invert_of_decide ended
  obtain ⟨advances, compiles⟩ := Stateful.Meets.of_ok (compile_yields sound bools small) isCompiled
  have stored : ∀ constraint ∈ constraints, middle.pool.Has constraint :=
    fun constraint member => advances.extension.has (bools constraint member).has
  -- the model is padded so that every variable has an entry
  let padded := model ++ Array.replicate (compiled.cnf.numVars + 1) false
  have longer : compiled.cnf.numVars < padded.size := by
    simp only [padded, Array.size_append, Array.size_replicate]
    omega
  obtain ⟨truth, carries⟩ := compiles.dense.exists_assignment (compiles.numVars_eq ▸ longer)
  obtain ⟨further, inverts⟩ := Stateful.Meets.of_ok
    (invert_yields options.generator (advances.sound sound) compiles carries) (invert_append inverted)
  exact ⟨IsTrans.trans _ _ _ advances further, compiled, middle, padded, truth, isCompiled,
    compiles.extend further.extension stored, carries,
    Cnf.clausesHold_append (satisfies compiled middle model isCompiled answer), inverts⟩

/-- A model that is found solves the constraints as soon as the engine's model makes the
formula true. -/
theorem solves_of_decide :
    workspace.pool.Extends after.pool ∧ found.Solves after.pool constraints options.generator := by
  obtain ⟨advances, compiled, middle, model, truth, -, compiles, carries, holds, inverts⟩ :=
    exists_inverts_of_decide sound bools small satisfies ended
  have stored : ∀ constraint ∈ constraints, after.pool.Has constraint :=
    fun constraint member => advances.extension.has (bools constraint member).has
  exact ⟨advances.extension, inverts.solves compiles.nodup compiles.surface fun env =>
    compiles.accepts_of_completes (advances.sound sound).typed stored carries holds⟩

end Reading

end Solve

namespace Problem

variable {workspace after : Workspace PassMemory} {constraints : List ExprId} {options : SolveOptions}
  {problem : Problem} {engine : Engine}

section Added

variable (added : constraints.foldlM (fun problem constraint => problem.add workspace.pool constraint)
    (start options) = .ok problem)
include added

theorem compile_eq_ok_iff {cnf : Cnf} : problem.compile workspace = .ok cnf after ↔
    ∃ compiled, Solve.compile constraints options workspace = .ok compiled after ∧ compiled.cnf = cnf := by
  obtain ⟨-, rfl⟩ := addAll_eq_ok_iff.mp added
  unfold compile
  rw [Stateful.bind_eq_ok]
  constructor
  · rintro ⟨compiled, middle, isCompiled, ended⟩
    cases ended
    exact ⟨compiled, isCompiled, rfl⟩
  · rintro ⟨compiled, isCompiled, rfl⟩
    exact ⟨compiled, after, isCompiled, rfl⟩

theorem solve_eq (engine : Engine) :
    (problem.solve engine workspace).1 = Solve.decide engine constraints options workspace := by
  obtain ⟨-, rfl⟩ := addAll_eq_ok_iff.mp added
  rfl

end Added

/-- A problem with a disjunction and the negation of its first operand as constraints. -/
theorem exists_added_disjunction (options : SolveOptions) :
    ∃ (workspace : Workspace PassMemory) (x y either denial : ExprId) (problem : Problem),
      workspace.Reachable ∧ workspace.pool.StoresDisjunction x y either denial ∧
      [either, denial].foldlM (fun problem constraint => problem.add workspace.pool constraint)
        (start options) = .ok problem ∧
      Solve.allocated [either, denial] options workspace < 2 ^ 31 := by
  obtain ⟨workspace, x, y, either, denial, reachable, stores⟩ := Workspace.exists_reachable_disjunction
  have bools : ∀ constraint ∈ [either, denial], workspace.pool.HasTy constraint .bool := by
    simpa using ⟨⟨_, stores.either⟩, ⟨_, stores.denial⟩⟩
  have few := Solve.allocated_disjunction_le options reachable.sound stores
  exact ⟨workspace, x, y, either, denial, _, reachable, stores, addAll_eq_ok_iff.mpr ⟨bools, rfl⟩,
    few.trans_lt (by decide)⟩

/-- With an engine that decides the formula of a problem, the problem is solved. It has
no model exactly if the constraints cannot all be true. A model has one valid value for
every variable of the constraints, and the constraints are true with these values. -/
theorem solve_decides (reachable : workspace.Reachable)
    (added : constraints.foldlM (fun problem constraint => problem.add workspace.pool constraint)
      (start options) = .ok problem)
    (small : Solve.allocated constraints options workspace < 2 ^ 31)
    (decides : ∀ cnf middle, problem.compile workspace = .ok cnf middle → engine.Decides cnf) :
    ∃ outcome after, (problem.solve engine workspace).1 = .ok outcome after ∧
      workspace.pool.Extends after.pool ∧
      (outcome = none ↔ ¬workspace.pool.Satisfiable constraints) ∧
      ∀ model ∈ outcome, model.Assigns after.pool constraints ∧ model.verify after.pool constraints := by
  obtain ⟨bools, -⟩ := addAll_eq_ok_iff.mp added
  obtain ⟨outcome, after, ended, advances, none, solves⟩ :=
    (Solve.decide_yields reachable.sound bools small fun compiled middle isCompiled =>
      decides _ middle ((compile_eq_ok_iff added).mpr ⟨compiled, isCompiled, rfl⟩)).exists_ok
  rw [advances.extension.satisfiable_iff fun constraint member => (bools constraint member).has] at none
  refine ⟨outcome, after, (solve_eq added engine).trans ended, advances.extension, none, ?_⟩
  intro model found
  have solved := solves model found
  exact ⟨solved.assigns, solved.verify (advances.sound reachable.sound).typed⟩

/-- For a disjunction and the negation of its first operand, the search of all assignments
finds a model. -/
theorem solve_decides_disjunction :
    ∃ (workspace : Workspace PassMemory) (x y either denial : ExprId) (problem : Problem),
      workspace.Reachable ∧ workspace.pool.StoresDisjunction x y either denial ∧
      [either, denial].foldlM (fun problem constraint => problem.add workspace.pool constraint)
        (start .standard) = .ok problem ∧
      Solve.allocated [either, denial] .standard workspace < 2 ^ 31 ∧
      (∀ cnf middle, problem.compile workspace = .ok cnf middle → Engine.exhaustive.Decides cnf) ∧
      ∃ model after, (problem.solve Engine.exhaustive workspace).1 = .ok (some model) after ∧
        model.verify after.pool [either, denial] := by
  obtain ⟨workspace, x, y, either, denial, problem, reachable, stores, added, small⟩ :=
    exists_added_disjunction .standard
  have decides : ∀ cnf middle, problem.compile workspace = .ok cnf middle → Engine.exhaustive.Decides cnf :=
    fun cnf _ _ => Engine.exhaustive_decides cnf
  refine ⟨workspace, x, y, either, denial, problem, reachable, stores, added, small, decides, ?_⟩
  obtain ⟨outcome, after, solved, -, none, found⟩ := solve_decides reachable added small decides
  cases outcome with
  | none => exact (none.mp rfl stores.satisfiable).elim
  | some model => exact ⟨model, after, solved, (found model rfl).2⟩

end Problem

end Clausal
