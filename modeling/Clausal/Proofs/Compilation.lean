import Mathlib
import Clausal.Proofs.Variables
import Clausal.Proofs.Assertion
import Clausal.Proofs.Numbering

/-!
# Compiling constraints

Constraints are normalized and asserted, and their variables are lowered. The
session at the end is exact about the values of variables under which all
constraints are true. This holds as long as the session has fewer than `2 ^ 31`
variables, which `Solve.allocated` counts also for runs that fail.
-/

namespace Clausal

namespace Session

variable {pool : Pool} {session : Session} {accepted other : Env → Prop}

/-- Exactness is about environments in which the variables have values. -/
theorem Exact.congr_of_bound (exact : session.Exact pool accepted)
    (same : ∀ env, (∀ entry ∈ session.surface, ∃ value, pool.evaluate entry.1 env = .ok value) →
      (accepted env ↔ other env)) : session.Exact pool other := by
  refine ⟨exact.closed, exact.cached, exact.surface, exact.apart, ?_, ?_, exact.unique⟩
  · intro truth env satisfied agrees
    refine (same env fun entry member => ?_).mp (exact.sound truth env satisfied agrees)
    obtain ⟨ty, represents⟩ := exact.represents_surface member
    exact ⟨_, agrees entry member ty represents.hasTy⟩
  · exact fun env bound accepts => exact.complete env bound ((same env bound).mpr accepts)

/-- An environment in which the variables of a session have values gives values to
the variables of an expression, if these were lowered. -/
theorem Exact.binds {env : Env} {e : ExprId} (exact : session.Exact pool accepted)
    (known : ∀ x, pool.Reaches e x → pool.isVariable x → x ∈ session.literals)
    (bound : ∀ entry ∈ session.surface, ∃ value, pool.evaluate entry.1 env = .ok value) :
    pool.Binds env e := by
  intro x ty name reaches stored
  have isVariable := Pool.isVariable_iff.mpr ⟨ty, name, stored⟩
  obtain ⟨lits, found⟩ := Option.isSome_iff_exists.mp
    (Std.HashMap.mem_iff_isSome_getElem?.mp (known x reaches isVariable))
  obtain ⟨value, evaluated⟩ := bound (x, lits) ((exact.surface x lits).mpr ⟨isVariable, found⟩)
  exact ⟨value, (Pool.evaluate_var stored).mp evaluated⟩

end Session

namespace Solve

variable {workspace : Workspace PassMemory} {session : Session} {accepted : Env → Prop}
  {constraints : List ExprId}

/-- The session in which assertions end, also if one of them fails. -/
def assertedSession (session : Session) : List ExprId → Workspace PassMemory → Session
  | [], _ => session
  | constraint :: rest, workspace =>
    match Pass.normalize constraint workspace with
    | .error _ _ => session
    | .ok normal after =>
      match Lower.assert after.pool normal session with
      | .error _ last => last
      | .ok _ next => assertedSession next rest after

/-- The session in which the lowering of variables ends, also if it fails. -/
def loweredSession (pool : Pool) (session : Session) : List ExprId → Session
  | [] => session
  | var :: rest =>
    match Lower.lower pool var session with
    | .error _ last => last
    | .ok _ next => loweredSession pool next rest

/-- The number of variables of the session when compilation ends, also if it fails. -/
def allocated (constraints : List ExprId) (options : SolveOptions)
    (workspace : Workspace PassMemory) : Nat :=
  match assertAll (.start options.flatten) constraints workspace with
  | .error _ _ => (assertedSession (.start options.flatten) constraints workspace).numVars
  | .ok session after =>
    (loweredSession after.pool session (workspace.pool.variablesOf constraints)).numVars

theorem numVars_le_assertedSession (session : Session) (constraints : List ExprId)
    (workspace : Workspace PassMemory) :
    session.numVars ≤ (assertedSession session constraints workspace).numVars := by
  induction constraints generalizing session workspace with
  | nil => exact le_rfl
  | cons constraint rest inductionHypothesis =>
    unfold assertedSession
    split
    · exact le_rfl
    · rename_i normal after _
      have grows := (Lower.grows_assert after.pool normal).keeps session
      split
      · exact grows.of_error ‹_›
      · exact (grows.of_ok ‹_›).trans (inductionHypothesis _ _)

theorem numVars_le_loweredSession (pool : Pool) (session : Session) (vars : List ExprId) :
    session.numVars ≤ (loweredSession pool session vars).numVars := by
  induction vars generalizing session with
  | nil => exact le_rfl
  | cons var rest inductionHypothesis =>
    have grows := (Lower.grows_lower pool var).keeps session
    unfold loweredSession
    split
    · exact grows.of_error ‹_›
    · exact (grows.of_ok ‹_›).trans (inductionHypothesis _)

theorem ofLower_yields {α : Type} {action : Lower α} {result : α} {after : Session}
    (ended : action session = .ok result after) :
    Yields (ofLower action session) workspace fun next last => next = after ∧ last = workspace := by
  unfold ofLower
  rw [ended]
  exact Stateful.Yields.pure ⟨rfl, rfl⟩

theorem ofWork_eq_ok {α : Type} {after : Workspace PassMemory} {action : Work α} {r : α} :
    ofWork action workspace = .ok r after ↔ action workspace = .ok r after := by
  unfold ofWork
  cases action workspace <;> simp

theorem ofLower_eq_ok {α : Type} {after : Workspace PassMemory} {action : Lower α} {next : Session} :
    ofLower action session workspace = .ok next after ↔
      (∃ r, action session = .ok r next) ∧ after = workspace := by
  unfold ofLower
  cases action session with
  | ok r last =>
    simp only [pure, EStateM.pure, EStateM.Result.ok.injEq, exists_eq_left', eq_comm]
  | error failure last => simp [throw, throwThe, MonadExceptOf.throw, EStateM.throw]

theorem assertAll_cons_eq_ok {constraint : ExprId} {last : Session} {after : Workspace PassMemory} :
    assertAll session (constraint :: constraints) workspace = .ok last after ↔
      ∃ normal middle r next, Pass.normalize constraint workspace = .ok normal middle ∧
        Lower.assert middle.pool normal session = .ok r next ∧
          assertAll next constraints middle = .ok last after := by
  constructor
  · intro ended
    obtain ⟨normal, middle, normalized, ended⟩ := Stateful.bind_eq_ok.mp ended
    obtain ⟨_, _, ⟨⟩, ended⟩ := Stateful.bind_eq_ok.mp ended
    obtain ⟨next, _, lowered, rest⟩ := Stateful.bind_eq_ok.mp ended
    obtain ⟨⟨r, asserted⟩, rfl⟩ := ofLower_eq_ok.mp lowered
    exact ⟨normal, _, r, next, ofWork_eq_ok.mp normalized, asserted, rest⟩
  · rintro ⟨normal, middle, r, next, normalized, asserted, ended⟩
    refine Stateful.bind_eq_ok.mpr ⟨normal, middle, ofWork_eq_ok.mpr normalized, ?_⟩
    refine Stateful.bind_eq_ok.mpr ⟨middle, middle, rfl, ?_⟩
    exact Stateful.bind_eq_ok.mpr ⟨next, middle, ofLower_eq_ok.mpr ⟨⟨r, asserted⟩, rfl⟩, ended⟩

/-- Assertions that succeed end in the session that was foretold. -/
theorem assertAll_ends (session : Session) (constraints : List ExprId)
    (workspace : Workspace PassMemory) :
    Stateful.Meets (assertAll session constraints) workspace
      (fun last _ => last = assertedSession session constraints workspace) fun _ _ => True := by
  induction constraints generalizing session workspace with
  | nil => exact Stateful.meets_pure.mpr rfl
  | cons constraint rest inductionHypothesis =>
    unfold assertAll assertedSession
    rw [Stateful.meets_bind, meets_ofWork]
    cases normalized : Pass.normalize constraint workspace with
    | error failure after => exact (Stateful.meets_iff_of_error normalized).mpr trivial
    | ok normal after =>
      rw [Stateful.meets_iff_of_ok normalized, Stateful.meets_bind, Stateful.meets_get,
        Stateful.meets_bind]
      unfold ofLower
      cases asserted : Lower.assert after.pool normal session with
      | error failure last => trivial
      | ok result next =>
        simp only [asserted]
        exact inductionHypothesis next after

/-- All constraints are asserted in their normal forms. -/
theorem assertAll_yields (sound : workspace.Sound)
    (bools : ∀ constraint ∈ constraints, workspace.pool.HasTy constraint .bool)
    (exact : session.Exact workspace.pool accepted)
    (live : (assertedSession session constraints workspace).Live) :
    Yields (assertAll session constraints) workspace fun last after =>
      last = assertedSession session constraints workspace ∧
        ∃ normals, List.Forall₂ after.pool.Refines constraints normals ∧
          last.Exact after.pool fun env =>
            accepted env ∧ ∀ normal ∈ normals, after.pool.Accepts env normal := by
  induction constraints generalizing session workspace accepted with
  | nil => exact Stateful.Yields.pure ⟨rfl, [], .nil, exact.congr fun env => by simp⟩
  | cons constraint rest inductionHypothesis =>
    have isBool := bools constraint List.mem_cons_self
    have earlierLive : session.Live :=
      (numVars_le_assertedSession session (constraint :: rest) workspace).trans_lt live
    obtain ⟨normal, middle, normalized, toNormal, refines, plain⟩ :=
      (Pass.normalize_yields sound isBool.has).exists_ok
    have normalBool : middle.pool.HasTy normal .bool :=
      refines.hasTy (toNormal.extension.hasTy isBool)
    have middleSound := toNormal.sound sound
    have runs := Lower.assert_runs middleSound.typed normalBool.has
      (exact.extend toNormal.extension) earlierLive
    unfold assertedSession at live ⊢
    rw [normalized] at live ⊢
    cases ended : Lower.assert middle.pool normal session with
    | error failure last =>
      simp only [ended] at live
      obtain ⟨-, -, refused⟩ := runs.of_error ended live
      exact (refused ⟨normalBool, plain⟩).elim
    | ok result next =>
      simp only [ended] at live ⊢
      have nextLive : next.Live := (numVars_le_assertedSession next rest middle).trans_lt live
      have asserts := runs.of_ok ended nextLive
      unfold assertAll
      refine (ofWork_yields (Stateful.Yields.of_ok normalized toNormal)).bind ?_
      rintro normal middle _ ⟨rfl, rfl⟩
      refine Stateful.Yields.get ((ofLower_yields ended).bind ?_)
      rintro next middle _ ⟨rfl, rfl⟩
      refine (inductionHypothesis middleSound (fun other member => toNormal.extension.hasTy
        (bools other (List.mem_cons_of_mem constraint member))) asserts.exact live).mono ?_
      rintro last after advances ⟨same, normals, each, lastExact⟩
      refine ⟨same, normal :: normals, .cons (refines.mono advances.extension) each,
        lastExact.congr fun env => ?_⟩
      rw [List.forall_mem_cons, Pool.Accepts, Pool.Accepts,
        advances.extension.evaluate_eq normalBool.has, and_assoc]

/-- All variables are lowered. -/
theorem lowerAll_yields {vars : List ExprId} (sound : workspace.Sound)
    (stored : ∀ var ∈ vars, workspace.pool.isVariable var)
    (exact : session.Exact workspace.pool accepted)
    (live : (loweredSession workspace.pool session vars).Live) :
    Yields (lowerAll session vars) workspace fun last after =>
      last = loweredSession workspace.pool session vars ∧ after = workspace ∧
        last.Exact workspace.pool accepted ∧ session.Extends last ∧ ∀ var ∈ vars, var ∈ last.literals := by
  induction vars generalizing session with
  | nil => exact Stateful.Yields.pure ⟨rfl, rfl, exact, refl session, nofun⟩
  | cons var rest inductionHypothesis =>
    obtain ⟨ty, name, found⟩ := Pool.isVariable_iff.mp (stored var List.mem_cons_self)
    have plain : workspace.pool.Plain var :=
      Pool.everywhere_leaf (by simp [Pool.op?, found, Node.op?])
    have earlierLive : session.Live :=
      (numVars_le_loweredSession workspace.pool session (var :: rest)).trans_lt live
    have runs := Lower.lower_runs sound.typed (Pool.has_iff.mpr ⟨_, found⟩) exact earlierLive
    unfold loweredSession at live ⊢
    cases ended : Lower.lower workspace.pool var session with
    | error failure last =>
      simp only [ended] at live
      obtain ⟨-, -, refused, -⟩ := runs.of_error ended live
      exact (refused plain).elim
    | ok lits next =>
      simp only [ended] at live ⊢
      have lowers := runs.of_ok ended
        ((numVars_le_loweredSession workspace.pool next rest).trans_lt live)
      unfold lowerAll
      refine Stateful.Yields.get ((ofLower_yields ended).bind ?_)
      rintro _ _ _ ⟨rfl, rfl⟩
      refine (inductionHypothesis (fun other member => stored other (List.mem_cons_of_mem var member))
        (lowers.advances.exact exact) live).mono ?_
      rintro last after _ ⟨same, unchanged, lastExact, extension, known⟩
      refine ⟨same, unchanged, lastExact,
        IsTrans.trans _ _ _ lowers.advances.extension extension, List.forall_mem_cons.mpr ⟨?_, known⟩⟩
      exact extension.known var (Std.HashMap.mem_iff_isSome_getElem?.mpr (by simp [lowers.found]))

/-- What is known about compiled constraints. -/
structure Compiles (compiled : Compiled) (pool : Pool) (constraints : List ExprId) : Prop where
  exact : compiled.session.Exact pool fun env =>
    ∀ constraint ∈ constraints, pool.Accepts env constraint
  surface : ∀ x, x ∈ compiled.surface ↔
    (∃ constraint ∈ constraints, pool.Reaches constraint x) ∧ pool.isVariable x
  nodup : compiled.surface.Nodup
  lowered : ∀ x ∈ compiled.surface, x ∈ compiled.session.literals
  numbered : Cnf.ofClauses compiled.session.store.toList = (compiled.cnf, compiled.numbering)

/-- In an environment that gives values to the variables of an expression, a
refinement is true exactly when the expression is. -/
theorem accepts_iff_of_refines {pool : Pool} {env : Env} {e r : ExprId} (typed : pool.WellTyped)
    (refines : pool.Refines e r) (bound : pool.Binds env e) :
    pool.Accepts env r ↔ pool.Accepts env e := by
  obtain ⟨value, evaluated⟩ := typed.exists_evaluate refines.has_left bound
  rw [Pool.Accepts, Pool.Accepts, evaluated, refines.means evaluated]

/-- Constraints are compiled. -/
theorem compile_yields {options : SolveOptions} (sound : workspace.Sound)
    (bools : ∀ constraint ∈ constraints, workspace.pool.HasTy constraint .bool)
    (small : allocated constraints options workspace < 2 ^ 31) :
    Yields (compile constraints options) workspace fun compiled after =>
      Compiles compiled after.pool constraints := by
  have start : (Session.start options.flatten).Exact workspace.pool fun _ => True :=
    Session.exact_start options.flatten
  have asserted : (assertedSession (.start options.flatten) constraints workspace).Live := by
    unfold allocated at small
    split at small
    · exact small
    · rename_i session after ended
      rw [← (assertAll_ends _ constraints workspace).of_ok ended]
      exact (numVars_le_loweredSession after.pool session _).trans_lt small
  obtain ⟨session, middle, ended, advances, -, normals, refines, exact⟩ :=
    (assertAll_yields sound bools start asserted).exists_ok
  have extension := advances.extension
  have middleSound := advances.sound sound
  have surface : ∀ x, x ∈ workspace.pool.variablesOf constraints ↔
      (∃ constraint ∈ constraints, middle.pool.Reaches constraint x) ∧ middle.pool.isVariable x :=
    fun x => extension.mem_variablesOf_iff fun constraint member => (bools constraint member).has
  have lowered : (loweredSession middle.pool session (workspace.pool.variablesOf constraints)).Live := by
    unfold allocated at small
    rwa [ended] at small
  refine Stateful.Yields.get ((Stateful.Yields.of_ok ended advances).bind ?_)
  rintro session middle _ ⟨rfl, rfl⟩
  refine (lowerAll_yields middleSound (fun x member => ((surface x).mp member).2) exact lowered).bind ?_
  rintro last middle _ ⟨-, rfl, lastExact, -, known⟩
  refine Stateful.Yields.pure ⟨lastExact.congr_of_bound fun env bound => ?_, surface,
    Pool.nodup_variablesOf _ _, known, rfl⟩
  rw [true_and, forall_mem_iff_of_forall₂]
  refine (forall₂_imp_of_mem refines fun constraint member normal refined => ?_).flip
  refine accepts_iff_of_refines middleSound.typed refined (lastExact.binds ?_ bound)
  exact fun x reaches isVariable => known x ((surface x).mpr ⟨⟨constraint, member, reaches⟩, isVariable⟩)

end Solve

end Clausal
