import Mathlib
import Clausal.Proofs.Renumbering
import Clausal.Proofs.Solving

/-!
# Bits that are left open

A model leaves open exactly those bits of the variables whose literals occur in no clause
(`Solve.leaves_iff_of_decide`). Whatever values these bits have, the constraints are true,
and the generator of the model says which bits have to be as they are.

Variables that normalization removes are an example. They are given literals when the
constraints have been asserted, and this stores no clause (`Solve.lowerAll_store`).
-/

namespace Clausal

/-- No clause was stored. -/
def Session.SameStore (before after : Session) : Prop :=
  after.store = before.store

instance : IsPreorder Session Session.SameStore where
  refl _ := rfl
  trans _ _ _ earlier later := later.trans earlier

namespace Lower

variable {pool : Pool} {session : Session} {e : ExprId} {ty : Ty} {name : String}

attribute [local irreducible] Lit.ofVar

theorem fresh_sameStore : Stateful.Keeps Session.SameStore fresh session :=
  meets_fresh_of_forall (fun _ _ => rfl) fun _ _ => rfl

/-- The bits of a variable take no clauses. -/
theorem lower_variable_sameStore (stored : pool.node? e = some ⟨ty, .var name⟩) :
    Stateful.Keeps Session.SameStore (lower pool e) session := by
  have bits : Stateful.Keeps Session.SameStore (variableBits e ty) session := by
    unfold variableBits
    refine .bind (.mapM fun _ _ after _ => fresh_sameStore) fun bits after _ => ?_
    exact .bind (Stateful.meets_modify.mpr rfl) fun _ last _ => .pure
  rw [lower_eq]
  refine .get ?_
  split
  · exact .pure
  · rw [lowerNode, stored]
    refine bits.bind fun lits after _ => ?_
    exact .bind (Stateful.meets_modify.mpr rfl) fun _ last _ => .pure

end Lower

namespace Solve

variable {workspace after : Workspace PassMemory} {session last : Session} {compiled : Compiled}
  {constraints : List ExprId} {options : SolveOptions} {engine : Engine}

/-- Variables that are lowered at the end take no clauses. -/
theorem lowerAll_store {vars : List ExprId} (each : ∀ x ∈ vars, workspace.pool.isVariable x)
    (ended : lowerAll session vars workspace = .ok last after) : last.store = session.store := by
  induction vars generalizing session with
  | nil =>
    cases ended
    rfl
  | cons x vars inductionHypothesis =>
    rw [List.forall_mem_cons] at each
    obtain ⟨ty, name, stored⟩ := Pool.isVariable_iff.mp each.1
    obtain ⟨_, _, ⟨⟩, ended⟩ := Stateful.bind_eq_ok.mp ended
    obtain ⟨next, _, lowered, rest⟩ := Stateful.bind_eq_ok.mp ended
    obtain ⟨⟨lits, isLowered⟩, rfl⟩ := ofLower_eq_ok.mp lowered
    have same : session.SameStore next := (Lower.lower_variable_sameStore stored).of_ok isLowered
    exact (inductionHypothesis each.2 rest).trans same

/-- The variables with numbers are those that occur in the clauses. -/
theorem Compiles.get?_eq_none_iff {pool : Pool} {var : Nat}
    (compiles : Compiles compiled pool constraints) : compiled.numbering.get? var = none ↔
      var ∉ Cnf.occurrences compiled.session.store.toList := by
  have ranks := Cnf.ranks_ofClauses compiled.session.store.toList
  rw [compiles.numbered] at ranks
  exact ranks.get?_eq_none_iff

/-- A bit is not determined exactly if its literal occurs in no clause. -/
theorem Compiles.knownBits_eq_none_iff {pool : Pool} {truth : Assignment} {x : ExprId} {index : Nat}
    {lits : Array Lit} (compiles : Compiles compiled pool constraints)
    (found : compiled.session.literals[x]? = some lits) :
    (knownBits compiled truth x)[index]? = some none ↔ ∃ lit, lits[index]? = some lit ∧
      lit.var ∉ Cnf.occurrences compiled.session.store.toList := by
  rw [knownBits, Std.HashMap.getD_eq_getD_getElem?, found, Option.getD_some, List.getElem?_map,
    Option.map_eq_some_iff, Array.getElem?_toList]
  simp only [Option.map_eq_none_iff, compiles.get?_eq_none_iff]

/-- A boolean is not determined by a unit clause if it may have both values. -/
theorem Compiles.knownBits_eq_none_of_unit {pool : Pool} {truth : Assignment} {unit : Lit} {x : ExprId}
    {name : String} (compiles : Compiles compiled pool constraints) (typed : pool.WellTyped)
    (stored : ∀ constraint ∈ constraints, pool.Has constraint)
    (clauses : compiled.session.store.toList = [[unit]]) (member : x ∈ compiled.surface)
    (isVariable : pool.node? x = some ⟨.bool, .var name⟩)
    (both : ∀ value, ∃ env, env name = some (.bool value) ∧
      ∀ constraint ∈ constraints, pool.Accepts env constraint) :
    knownBits compiled truth x = [none] := by
  obtain ⟨ty, own, lits, isStored, found, -, size⟩ := compiles.exists_literals member
  obtain rfl : .bool = ty := by
    rw [isVariable] at isStored
    cases isStored
    rfl
  obtain ⟨lit, rfl⟩ := Array.size_eq_one_iff.mp size
  have values : ∀ value, ∃ truth : Assignment, unit.holds truth = true ∧ lit.holds truth = value := by
    intro value
    obtain ⟨env, given, accepts⟩ := both value
    obtain ⟨truth, satisfied, agrees⟩ := compiles.exists_satisfied typed stored
      (fun constraint inside => Pool.binds_of_evaluate (stored constraint inside) (accepts constraint inside))
      accepts
    have evaluated := agrees x member .bool _ ⟨_, isVariable⟩ found
    rw [(Pool.evaluate_var isVariable).mpr ⟨given, rfl⟩] at evaluated
    refine ⟨truth, ?_, ?_⟩
    · simpa [Clause.Holds] using satisfied [unit] (by simp [clauses])
    · simpa [Assignment.value, Ty.decode] using (Except.ok.inj evaluated).symm
  have apart : lit.var ≠ unit.var := by
    intro same
    obtain ⟨truth, unitHolds, holds⟩ := values true
    obtain ⟨other, otherUnit, fails⟩ := values false
    have alike := holds_eq_iff.mp (unitHolds.trans otherUnit.symm)
    rw [← same, ← holds_eq_iff, holds, fails] at alike
    cases alike
  have unnumbered : compiled.numbering.get? lit.var = none := by
    rw [compiles.get?_eq_none_iff, clauses]
    simpa [Cnf.occurrences] using apart
  rw [knownBits, Std.HashMap.getD_eq_getD_getElem?, found]
  simp [unnumbered]

/-- A model that is found leaves open exactly those bits whose literals occur in no
clause. -/
theorem leaves_iff_of_decide {found : Model} (sound : workspace.Sound)
    (bools : ∀ constraint ∈ constraints, workspace.pool.HasTy constraint .bool)
    (small : allocated constraints options workspace < 2 ^ 31)
    (satisfies : ∀ compiled middle model, compile constraints options workspace = .ok compiled middle →
      engine compiled.cnf = .ok (some model) → compiled.cnf.eval model = .ok true)
    (ended : decide engine constraints options workspace = .ok (some found) after) :
    ∃ compiled middle, compile constraints options workspace = .ok compiled middle ∧
      ∀ x ∈ compiled.surface, ∀ lits, compiled.session.literals[x]? = some lits → ∀ index,
        found.Leaves x index ↔ ∃ lit, lits[index]? = some lit ∧
          lit.var ∉ Cnf.occurrences compiled.session.store.toList := by
  obtain ⟨-, compiled, middle, model, truth, isCompiled, compiles, -, -, inverts⟩ :=
    exists_inverts_of_decide sound bools small satisfies ended
  refine ⟨compiled, middle, isCompiled, fun x member lits found index => ?_⟩
  rw [inverts.leaves_iff member, compiles.knownBits_eq_none_iff found]

end Solve

section Choice

/-- Two variables, and the choice of the first of them by a constant. -/
structure Pool.StoresChoice (pool : Pool) (yes x y choice : ExprId) : Prop where
  constant : pool.node? yes = some ⟨.bool, .const (.bool true)⟩
  first : pool.node? x = some ⟨.bool, .var "x"⟩
  second : pool.node? y = some ⟨.bool, .var "y"⟩
  choice : pool.node? choice = some ⟨.bool, .apply .ite [yes, x, y]⟩

theorem Workspace.exists_reachable_choice :
    ∃ (workspace : Workspace PassMemory) (yes x y choice : ExprId), workspace.Reachable ∧
      workspace.pool.StoresChoice yes x y choice := by
  have sized : Ty.bool.Sized := trivial
  obtain ⟨first, x, y, firstReachable, xStored, yStored⟩ :=
    exists_reachable_variables (by decide : "y" ≠ "x")
  obtain ⟨second, yes, secondReachable, toSecond, yesStored⟩ :=
    firstReachable.exists_built (.const sized (.bool true)) (Build.const_yields (fun _ => sized) rfl)
  obtain ⟨third, choice, reachable, toThird, choiceStored⟩ :=
    secondReachable.exists_apply (.ite (.inl rfl)) (by simp)
      (.cons ⟨_, yesStored⟩ (.cons ⟨_, toSecond xStored⟩ (.cons ⟨_, toSecond yStored⟩ .nil)))
  exact ⟨third, yes, x, y, choice, reachable,
    ⟨toThird yesStored, toThird (toSecond xStored), toThird (toSecond yStored), choiceStored⟩⟩

namespace Pool.StoresChoice

variable {pool later : Pool} {env : Env} {yes x y choice : ExprId}
  (stores : pool.StoresChoice yes x y choice)
include stores

theorem mono (extension : pool.Extends later) : later.StoresChoice yes x y choice :=
  ⟨extension stores.constant, extension stores.first, extension stores.second, extension stores.choice⟩

theorem hasTy : pool.HasTy choice .bool :=
  ⟨_, stores.choice⟩

/-- Both variables occur in the choice. -/
theorem mem_variables_iff {z : ExprId} :
    pool.Reaches choice z ∧ pool.isVariable z ↔ z = x ∨ z = y := by
  constructor
  · rintro ⟨reaches, isVariable⟩
    obtain ⟨ty, name, stored⟩ := isVariable_iff.mp isVariable
    have notChoice : z ≠ choice := by
      rintro rfl
      simp [stores.choice] at stored
    have notYes : z ≠ yes := by
      rintro rfl
      simp [stores.constant] at stored
    rw [reaches_iff stores.choice] at reaches
    simpa [reaches_iff stores.constant, reaches_iff stores.first, reaches_iff stores.second,
      Node.operands, Form.operands, notChoice, notYes] using reaches
  · rintro (rfl | rfl)
    · exact ⟨.of_operand stores.choice (by simp [Node.operands, Form.operands]) .refl,
        isVariable_iff.mpr ⟨_, _, stores.first⟩⟩
    · exact ⟨.of_operand stores.choice (by simp [Node.operands, Form.operands]) .refl,
        isVariable_iff.mpr ⟨_, _, stores.second⟩⟩

/-- The choice has the value of the first variable. -/
theorem evaluate_eq {first second : Bool} (isFirst : env "x" = some (.bool first))
    (isSecond : env "y" = some (.bool second)) : pool.evaluate choice env = .ok (.bool first) := by
  have yesValue : pool.evaluate yes env = .ok (.bool true) := evaluate_const stores.constant
  have xValue : pool.evaluate x env = .ok (.bool first) := (evaluate_var stores.first).mpr ⟨isFirst, rfl⟩
  have yValue : pool.evaluate y env = .ok (.bool second) := (evaluate_var stores.second).mpr ⟨isSecond, rfl⟩
  exact (evaluate_apply stores.choice).mpr
    ⟨_, .cons yesValue (.cons xValue (.cons yValue .nil)), rfl⟩

end Pool.StoresChoice

namespace Solve

variable {workspace after : Workspace PassMemory} {compiled : Compiled} {options : SolveOptions}
  {engine : Engine} {yes x y choice : ExprId}

/-- The choice is prepared by taking what is chosen. -/
theorem derivesAll_choice (sound : workspace.Sound)
    (stores : workspace.pool.StoresChoice yes x y choice) :
    Pass.DerivesAll Pass.preparation (workspace.pool.tree choice) (workspace.pool.tree x) := by
  have settled : ∀ operand ∈ [yes, x, y], workspace.pool.Settled operand := by
    simp only [List.forall_mem_cons]
    exact ⟨Pool.settled_leaf (by simp [Pool.op?, stores.constant, Node.op?]), Pool.settled_var stores.first,
      Pool.settled_var stores.second, by simp⟩
  have rigid : workspace.pool.Rigid x := .selection (.var stores.first)
  exact .cons (Pool.derives_choice sound.typed stores.choice stores.constant
      (by simp [Pool.constant?, stores.first]) settled)
    (Pass.derivesAll_of_rigid sound rigid (Pool.has_iff.mpr ⟨_, stores.first⟩) _)

/-- The choice compiles to one clause. -/
theorem store_choice (sound : workspace.Sound) (stores : workspace.pool.StoresChoice yes x y choice)
    (ended : compile [choice] options workspace = .ok compiled after) :
    compiled.session.store.toList = [[.positive 1 (Nat.succ_pos 0)]] := by
  have normal := Pass.normalize_of_prepared sound stores.hasTy.has (Pool.has_iff.mpr ⟨_, stores.first⟩)
    (.selection (.var stores.first)) (derivesAll_choice sound stores)
  obtain ⟨_, _, ⟨⟩, ended⟩ := Stateful.bind_eq_ok.mp ended
  obtain ⟨session, middle, asserted, ended⟩ := Stateful.bind_eq_ok.mp ended
  obtain ⟨last, _, lowered, ended⟩ := Stateful.bind_eq_ok.mp ended
  cases ended
  obtain ⟨r, first, _, next, normalized, isAsserted, rest⟩ := assertAll_cons_eq_ok.mp asserted
  cases rest
  obtain ⟨advances, rfl⟩ := Stateful.Meets.of_ok normal normalized
  obtain ⟨other, otherEnded, -, -, clauses⟩ :=
    Lower.assert_variable_ends options.flatten (advances.extension stores.first)
  cases isAsserted.symm.trans otherEnded
  have each : ∀ z ∈ workspace.pool.variablesOf [choice], middle.pool.isVariable z := fun z member =>
    ((advances.extension.mem_variablesOf_iff (by simpa using stores.hasTy.has)).mp member).2
  rw [lowerAll_store each lowered, clauses]

theorem allocated_choice_le (options : SolveOptions) (sound : workspace.Sound)
    (stores : workspace.pool.StoresChoice yes x y choice) : allocated [choice] options workspace ≤ 3 := by
  have prepared : ∀ constraint ∈ [choice], ∃ prepared,
      Pass.DerivesAll Pass.preparation (workspace.pool.tree constraint) prepared ∧ prepared.demand ≤ 1 := by
    have few : (workspace.pool.tree x).demand ≤ 1 := by
      simp [Pool.tree_var stores.first, Tree.demand, Ty.bitSize]
    simpa using ⟨_, derivesAll_choice sound stores, few⟩
  have bound := allocated_le sound.toCoherent options (by simpa using stores.hasTy.has) prepared
  have few : total (fun var => (workspace.pool.tree var).demand) (workspace.pool.variablesOf [choice]) ≤
      total (fun var => (workspace.pool.tree var).demand) [x, y] := by
    refine total_le_of_subset (Pool.nodup_variablesOf _ _) fun z member => ?_
    rw [List.mem_pair, ← stores.mem_variables_iff]
    simpa using Pool.mem_variablesOf_iff.mp member
  simp [Pool.tree_var stores.first, Pool.tree_var stores.second, Tree.demand, Ty.bitSize] at bound few
  omega

theorem mem_surface_choice {pool : Pool} {z : ExprId} (compiles : Compiles compiled pool [choice])
    (stores : pool.StoresChoice yes x y choice) : z ∈ compiled.surface ↔ z = x ∨ z = y := by
  rw [compiles.surface, ← stores.mem_variables_iff]
  simp

/-- A model of the choice determines the first variable and leaves the second one open. -/
theorem knownBits_choice {pool : Pool} {model : Array Bool} {truth : Assignment}
    (compiles : Compiles compiled pool [choice]) (typed : pool.WellTyped)
    (stores : pool.StoresChoice yes x y choice)
    (clauses : compiled.session.store.toList = [[.positive 1 (Nat.succ_pos 0)]])
    (carries : compiled.numbering.Carries model truth) (holds : compiled.cnf.eval model = .ok true) :
    knownBits compiled truth x = [some true] ∧ knownBits compiled truth y = [none] := by
  have stored : ∀ constraint ∈ [choice], pool.Has constraint := by simpa using stores.hasTy.has
  have second : knownBits compiled truth y = [none] := by
    refine compiles.knownBits_eq_none_of_unit typed stored clauses
      ((mem_surface_choice compiles stores).mpr (.inr rfl)) stores.second fun value => ⟨fun name => some (.bool (name = "x" || value)), by simp, ?_⟩
    exact List.forall_mem_singleton.mpr (stores.evaluate_eq (by simp) rfl)
  refine ⟨?_, second⟩
  obtain ⟨bit, isBit⟩ : ∃ bit, knownBits compiled truth x = [bit] := by
    obtain ⟨ty, name, lits, isStored, found, -, size⟩ :=
      compiles.exists_literals ((mem_surface_choice compiles stores).mpr (.inl rfl))
    rw [stores.first] at isStored
    cases isStored
    rw [← List.length_eq_one_iff, knownBits, Std.HashMap.getD_eq_getD_getElem?, found]
    simpa [Ty.bitSize] using size
  -- otherwise the choice could be false
  by_contra differ
  have completes : Completes pool (knownBits compiled truth) compiled.surface
      fun _ => some (.bool false) := by
    intro z member
    rcases (mem_surface_choice compiles stores).mp member with rfl | rfl
    · refine ⟨.bool, .bool false, ⟨_, stores.first⟩, (Pool.evaluate_var stores.first).mpr ⟨rfl, rfl⟩, ?_⟩
      rw [isBit] at differ ⊢
      refine .cons (fun given isGiven => ?_) .nil
      rw [Option.mem_def.mp isGiven] at differ
      cases given with
      | true => exact (differ rfl).elim
      | false => rfl
    · refine ⟨.bool, .bool false, ⟨_, stores.second⟩, (Pool.evaluate_var stores.second).mpr ⟨rfl, rfl⟩, ?_⟩
      rw [second]
      exact .cons (by simp) .nil
  have accepts := compiles.accepts_of_completes typed stored carries holds completes choice (by simp)
  rw [Pool.Accepts, stores.evaluate_eq rfl rfl] at accepts
  cases accepts

/-- The search of all assignments finds a model of the choice. -/
theorem exists_decide_choice (options : SolveOptions) (sound : workspace.Sound)
    (stores : workspace.pool.StoresChoice yes x y choice) :
    ∃ found after, decide Engine.exhaustive [choice] options workspace = .ok (some found) after := by
  obtain ⟨outcome, after, ended, advances, none, -⟩ := (decide_yields sound (by simpa using stores.hasTy)
    ((allocated_choice_le options sound stores).trans_lt (by decide))
    fun compiled _ _ => Engine.exhaustive_decides compiled.cnf).exists_ok
  cases outcome with
  | some found => exact ⟨found, after, ended⟩
  | none =>
    have later := stores.mono advances.extension
    have evaluated : after.pool.Accepts (fun _ => some (.bool true)) choice := later.evaluate_eq rfl rfl
    refine (none.mp rfl ⟨fun _ => some (.bool true), ?_⟩).elim
    exact List.forall_mem_singleton.mpr ⟨Pool.binds_of_evaluate later.hasTy.has evaluated, evaluated⟩

/-- The generator of the choice compares the first variable with its value. -/
theorem decide_choice {found : Model} (sound : workspace.Sound)
    (stores : workspace.pool.StoresChoice yes x y choice) (generates : options.generator)
    (satisfies : ∀ compiled middle model, compile [choice] options workspace = .ok compiled middle →
      engine compiled.cnf = .ok (some model) → compiled.cnf.eval model = .ok true)
    (ended : decide engine [choice] options workspace = .ok (some found) after) :
    workspace.Advances after ∧ found.Leaves y 0 ∧ ∃ whole, found.generator = some whole ∧
      Equates after.pool x .bool (.bool true) whole := by
  obtain ⟨advances, compiled, middle, model, truth, isCompiled, compiles, carries, holds, inverts⟩ :=
    exists_inverts_of_decide sound (by simpa using stores.hasTy)
      ((allocated_choice_le options sound stores).trans_lt (by decide)) satisfies ended
  have later := stores.mono advances.extension
  obtain ⟨first, second⟩ := knownBits_choice compiles (advances.sound sound).typed later
    (store_choice sound stores isCompiled) carries holds
  have isOpen : found.Leaves y 0 :=
    (inverts.leaves_iff ((mem_surface_choice compiles later).mpr (.inr rfl)) 0).mpr (by simp [second])
  refine ⟨advances, isOpen, ?_⟩
  refine inverts.equates generates compiles.nodup x ((mem_surface_choice compiles later).mpr (.inl rfl))
    [true] first (by simp) (fun z member differ => ?_) .bool ⟨_, later.first⟩
  rw [((mem_surface_choice compiles later).mp member).resolve_left differ, second]
  rfl

end Solve

end Choice

namespace Problem

variable {workspace after : Workspace PassMemory} {constraints : List ExprId} {options : SolveOptions}
  {problem : Problem} {engine : Engine}

/-- The bits that a model leaves open do not matter: values that agree with the model on
the other bits make all constraints true. If generators are made, there is none exactly
if all bits of all variables are left open, and otherwise the generator is a boolean that
is true exactly for the values that agree with the model. It is enough that the engine's
answer makes the formula true. -/
theorem solve_generates {model : Model} (reachable : workspace.Reachable)
    (added : constraints.foldlM (fun problem constraint => problem.add workspace.pool constraint)
      (start options) = .ok problem)
    (small : Solve.allocated constraints options workspace < 2 ^ 31)
    (satisfies : ∀ cnf middle answer, problem.compile workspace = .ok cnf middle →
      engine cnf = .ok (some answer) → cnf.eval answer = .ok true)
    (solved : (problem.solve engine workspace).1 = .ok (some model) after) :
    workspace.pool.Extends after.pool ∧ model.Assigns after.pool constraints ∧
      (∀ env, (∀ constraint ∈ constraints, after.pool.Binds env constraint) →
        model.Agrees after.pool env → ∀ constraint ∈ constraints, after.pool.Accepts env constraint) ∧
      (options.generator →
        (model.generator = none ↔ ∀ binding ∈ model.bindings, ∀ ty,
          after.pool.HasTy binding.var ty → ∀ index < ty.bitSize, model.Leaves binding.var index) ∧
        ∀ whole ∈ model.generator, after.pool.HasTy whole .bool ∧
          ∀ env, (∀ constraint ∈ constraints, after.pool.Binds env constraint) →
            ∃ truth, after.pool.evaluate whole env = .ok (.bool truth) ∧
              (truth ↔ model.Agrees after.pool env)) := by
  obtain ⟨bools, -⟩ := addAll_eq_ok_iff.mp added
  rw [solve_eq added] at solved
  obtain ⟨extension, solves⟩ := Solve.solves_of_decide reachable.sound bools small
    (fun compiled middle answer isCompiled =>
      satisfies _ middle answer ((compile_eq_ok_iff added).mpr ⟨compiled, isCompiled, rfl⟩)) solved
  refine ⟨extension, solves.assigns, fun env bound agrees => solves.accepts env ⟨bound, agrees⟩, ?_⟩
  intro generates
  refine ⟨solves.none_iff generates, fun whole isWhole => ?_⟩
  have generator := solves.generates generates whole isWhole
  exact ⟨generator.isBool, generator.means⟩

/-- The variable that a constant does not choose is left open, and the generator is true
exactly where the chosen one is. -/
theorem solve_generates_choice :
    ∃ (workspace after : Workspace PassMemory) (yes x y choice : ExprId) (problem : Problem) (model : Model),
      workspace.Reachable ∧ workspace.pool.StoresChoice yes x y choice ∧
      [choice].foldlM (fun problem constraint => problem.add workspace.pool constraint) (start .standard) =
        .ok problem ∧
      Solve.allocated [choice] .standard workspace < 2 ^ 31 ∧
      (∀ cnf middle answer, problem.compile workspace = .ok cnf middle →
        Engine.exhaustive cnf = .ok (some answer) → cnf.eval answer = .ok true) ∧
      (problem.solve Engine.exhaustive workspace).1 = .ok (some model) after ∧
      model.Leaves y 0 ∧ ∃ whole, model.generator = some whole ∧ after.pool.HasTy whole .bool ∧
        ∀ env first second, env "x" = some (.bool first) → env "y" = some (.bool second) →
          after.pool.evaluate whole env = .ok (.bool first) ∧ (first ↔ model.Agrees after.pool env) ∧
            (first → after.pool.Accepts env choice) := by
  obtain ⟨workspace, yes, x, y, choice, reachable, stores⟩ := Workspace.exists_reachable_choice
  have sound := reachable.sound
  have bools : ∀ constraint ∈ [choice], workspace.pool.HasTy constraint .bool := by
    simpa using stores.hasTy
  have added : [choice].foldlM (fun problem constraint => problem.add workspace.pool constraint)
      (start .standard) = .ok ⟨[choice], .standard, .unsolved⟩ := addAll_eq_ok_iff.mpr ⟨bools, rfl⟩
  have small : Solve.allocated [choice] .standard workspace < 2 ^ 31 :=
    (Solve.allocated_choice_le .standard sound stores).trans_lt (by decide)
  obtain ⟨model, after, ended⟩ := Solve.exists_decide_choice .standard sound stores
  have solved := (solve_eq added _).trans ended
  obtain ⟨extension, -, accepts, generates⟩ := solve_generates reachable added small
    (fun cnf _ _ _ => (Engine.exhaustive_decides cnf).eval_eq) solved
  obtain ⟨-, leaves, whole, isWhole, equates⟩ := Solve.decide_choice sound stores rfl
    (fun compiled _ _ _ => (Engine.exhaustive_decides compiled.cnf).eval_eq) ended
  obtain ⟨isBool, means⟩ := (generates rfl).2 whole isWhole
  refine ⟨workspace, after, yes, x, y, choice, _, model, reachable, stores, added, small,
    fun cnf _ _ _ => (Engine.exhaustive_decides cnf).eval_eq, solved, leaves, whole, isWhole, isBool, ?_⟩
  intro env first second isFirst isSecond
  have later := stores.mono extension
  have bound : ∀ constraint ∈ [choice], after.pool.Binds env constraint := by
    simpa using Pool.binds_of_evaluate later.hasTy.has (later.evaluate_eq isFirst isSecond)
  obtain ⟨truth, evaluated, iff⟩ := means env bound
  have compared := Solve.Equates.evaluate_eq equates ((Pool.evaluate_var later.first).mpr ⟨isFirst, rfl⟩)
  rw [evaluated] at compared
  obtain rfl : truth = first := by simpa using compared
  exact ⟨evaluated, iff, fun holds => accepts env bound (iff.mp holds) choice (by simp)⟩

end Problem

end Clausal
