import Mathlib
import Clausal.Proofs.Demand
import Clausal.Proofs.LoweringAgreement

/-!
# Compilation depends on trees only

`Workspaces.Repeats` relates an action on a workspace to one that does the same on
another workspace whenever the first one succeeds. Normal forms of alike
constraints are alike, whatever either workspace was used for before, so the
constraints are asserted by the same clauses and the formula is the same.
-/

namespace Clausal

namespace Pools

variable {pools : Pools} {a b : ExprId} {xs ys : List ExprId}

theorem mem_iff_of_alike (each : List.Forall₂ pools.Alike xs ys) (alike : pools.Alike a b) :
    a ∈ xs ↔ b ∈ ys := by
  constructor
  · intro member
    obtain ⟨other, otherMember, otherAlike⟩ := exists_of_forall₂_of_mem each member
    rwa [(alike.eq_iff otherAlike).mp rfl]
  · intro member
    obtain ⟨other, otherMember, otherAlike⟩ := exists_of_forall₂_of_mem each.flip member
    rwa [(alike.eq_iff otherAlike).mpr rfl]

/-- Traversals that are alike so far go on alike. -/
theorem visit_alike {visited otherVisited : Std.HashSet ExprId} {order otherOrder : Array ExprId}
    {pending others : List ExprId} (known : ∀ e, visited.contains e ↔ e ∈ order)
    (otherKnown : ∀ e, otherVisited.contains e ↔ e ∈ otherOrder)
    (orders : List.Forall₂ pools.Alike order.toList otherOrder.toList)
    (each : List.Forall₂ pools.Alike pending others) :
    List.Forall₂ pools.Alike (pools.left.visit visited order pending).toList
      (pools.right.visit otherVisited otherOrder others).toList := by
  fun_induction Pool.visit pools.left visited order pending
    generalizing otherVisited otherOrder others with
  | case1 visited order =>
    cases each
    rw [Pool.visit]
    exact orders
  | case2 visited order e rest contained inductionHypothesis =>
    obtain _ | @⟨_, x, _, others, alike, each⟩ := each
    have otherContained : otherVisited.contains x := by
      rwa [otherKnown, ← Array.mem_toList_iff, ← mem_iff_of_alike orders alike, Array.mem_toList_iff,
        ← known]
    rw [Pool.visit, if_pos otherContained]
    exact inductionHypothesis known otherKnown orders each
  | case3 visited order e rest missing inductionHypothesis =>
    obtain _ | @⟨_, x, _, others, alike, each⟩ := each
    have otherMissing : ¬ otherVisited.contains x := by
      rwa [otherKnown, ← Array.mem_toList_iff, ← mem_iff_of_alike orders alike, Array.mem_toList_iff,
        ← known]
    rw [Pool.visit, if_neg otherMissing]
    refine inductionHypothesis (Pool.contains_insert_iff known e)
      (Pool.contains_insert_iff otherKnown x) ?_ (List.rel_append alike.operands each)
    rw [Array.toList_push, Array.toList_push]
    exact List.rel_append orders (.cons alike .nil)

/-- The variables of alike expressions are alike, in the same order. -/
theorem variablesOf_alike (each : List.Forall₂ pools.Alike xs ys) :
    List.Forall₂ pools.Alike (pools.left.variablesOf xs) (pools.right.variablesOf ys) := by
  refine List.rel_filter (fun a b alike => ?_) (visit_alike (by simp) (by simp) .nil each)
  exact iff_of_eq (congrArg (· = true) alike.isVariable_eq)

end Pools

namespace Solve

variable {α : Type} {workspace after : Workspace PassMemory}

/-- What solving makes of the answer of an engine. -/
def conclude (compiled : Compiled) (generate : Bool) :
    Except (Failure String) (Option (Array Bool)) → Solve (Option Model)
  | .error failure => throw (failure.map .engine)
  | .ok none => return none
  | .ok (some model) => do
    let found ← invert compiled model generate
    return some found

theorem decide_eq (engine : Engine) (constraints : List ExprId) (options : SolveOptions) :
    decide engine constraints options = (do
      let compiled ← compile constraints options
      conclude compiled options.generator (engine compiled.cnf)) := by
  unfold decide
  refine bind_congr fun compiled => ?_
  rcases engine compiled.cnf with failure | _ | model <;> rfl

end Solve

/-- Two coherent workspaces. -/
structure Workspaces where
  left : Workspace PassMemory
  right : Workspace PassMemory
  leftCoherent : left.Coherent
  rightCoherent : right.Coherent

namespace Workspaces

variable {α β γ δ : Type} {pair : Workspaces} {a b : ExprId} {xs ys : List ExprId}
  {session other : Session}

/-- The pools of two workspaces. -/
def pools (pair : Workspaces) : Pools :=
  ⟨pair.left.pool, pair.right.pool, pair.leftCoherent.typed, pair.rightCoherent.typed⟩

/-- Where an action succeeds on one of two workspaces, the other one succeeds on the
other workspace, with a related result. -/
def Repeats (pair : Workspaces) (action : Solve α) (other : Solve β)
    (related : α → β → Workspaces → Prop) : Prop :=
  ∀ ⦃r : α⦄ ⦃after : Workspace PassMemory⦄, action pair.left = .ok r after →
    ∃ (s : β) (last : Workspaces), last.left = after ∧ other pair.right = .ok s last.right ∧
      pair.pools.Extends last.pools ∧ related r s last

namespace Repeats

variable {action : Solve α} {other : Solve β} {related : α → β → Workspaces → Prop}

theorem pure {r : α} {s : β} (holds : related r s pair) :
    pair.Repeats (Pure.pure r) (Pure.pure s) related := by
  rintro _ _ ⟨⟩
  exact ⟨s, pair, rfl, rfl, refl pair.pools, holds⟩

theorem bind {next : α → Solve γ} {otherNext : β → Solve δ} {last : γ → δ → Workspaces → Prop}
    (first : pair.Repeats action other related)
    (second : ∀ r s after, pair.pools.Extends after.pools → related r s after →
      after.Repeats (next r) (otherNext s) last) :
    pair.Repeats (action >>= next) (other >>= otherNext) last := by
  intro r after ended
  obtain ⟨middle, _, isMiddle, ended⟩ := Stateful.bind_eq_ok.mp ended
  obtain ⟨otherMiddle, between, rfl, isOtherMiddle, toBetween, holds⟩ := first isMiddle
  obtain ⟨s, final, rfl, otherEnded, toFinal, finalHolds⟩ :=
    second middle otherMiddle between toBetween holds ended
  exact ⟨s, final, rfl, Stateful.bind_eq_ok.mpr ⟨_, _, isOtherMiddle, otherEnded⟩,
    IsTrans.trans _ _ _ toBetween toFinal, finalHolds⟩

theorem get {next : Workspace PassMemory → Solve γ} {otherNext : Workspace PassMemory → Solve δ}
    {last : γ → δ → Workspaces → Prop}
    (rest : pair.Repeats (next pair.left) (otherNext pair.right) last) :
    pair.Repeats (MonadState.get >>= next) (MonadState.get >>= otherNext) last :=
  rest

end Repeats

/-- Normal forms of alike expressions are alike. -/
theorem normalize_repeats (alike : pair.pools.Alike a b) :
    pair.Repeats (Solve.ofWork (Pass.normalize a)) (Solve.ofWork (Pass.normalize b))
      fun r s last => last.pools.Alike r s := by
  intro r after ended
  rw [Solve.ofWork_eq_ok] at ended
  obtain ⟨advances, chain⟩ := (Pass.normalize_tries pair.leftCoherent alike.left).of_ok ended
  have derives := chain.derives
  rw [advances.extension.tree_eq alike.left] at derives
  have otherDerives : Pass.DerivesAll Pass.stages (pair.right.pool.tree b) (after.pool.tree r) :=
    alike.tree_eq ▸ derives
  obtain ⟨s, otherAfter, otherEnded, otherAdvances, otherChain⟩ :=
    ((Pass.normalize_tries pair.rightCoherent alike.right).yields fun stuck =>
      stuck.no_result ⟨_, otherDerives⟩).exists_ok
  refine ⟨s, ⟨after, otherAfter, advances.coherent pair.leftCoherent,
    otherAdvances.coherent pair.rightCoherent⟩, rfl, Solve.ofWork_eq_ok.mpr otherEnded,
    ⟨advances.extension, otherAdvances.extension⟩,
    ⟨chain.refines.has_right, otherChain.refines.has_right, ?_⟩⟩
  have found := otherChain.derives
  rw [otherAdvances.extension.tree_eq alike.right] at found
  exact otherDerives.unique found

/-- What is done to one of two sessions that are the same is done to the other. -/
theorem ofLower_repeats {related : α → β → Prop} {action : Lower α} {otherAction : Lower β}
    (same : pair.pools.SameSession session other)
    (repeats : pair.pools.Repeats action otherAction related) :
    pair.Repeats (Solve.ofLower action session) (Solve.ofLower otherAction other)
      fun next otherNext last => last.pools.SameSession next otherNext := by
  intro next after ended
  obtain ⟨⟨r, lowered⟩, rfl⟩ := Solve.ofLower_eq_ok.mp ended
  obtain ⟨s, otherNext, otherLowered, -, sameNext⟩ := repeats same lowered
  exact ⟨otherNext, pair, rfl, Solve.ofLower_eq_ok.mpr ⟨⟨s, otherLowered⟩, rfl⟩, refl pair.pools, sameNext⟩

theorem assertAll_repeats (each : List.Forall₂ pair.pools.Alike xs ys)
    (same : pair.pools.SameSession session other) :
    pair.Repeats (Solve.assertAll session xs) (Solve.assertAll other ys)
      fun next otherNext last => last.pools.SameSession next otherNext := by
  induction xs generalizing pair ys session other with
  | nil =>
    cases each
    exact .pure same
  | cons constraint xs inductionHypothesis =>
    obtain _ | ⟨alike, rest⟩ := each
    refine (normalize_repeats alike).bind fun normal otherNormal middle toMiddle normals => .get ?_
    refine (ofLower_repeats (same.mono toMiddle) (Pools.assert_repeats normals)).bind
      fun next otherNext after toAfter sameNext => ?_
    exact inductionHypothesis (Pools.forall₂_mono (IsTrans.trans _ _ _ toMiddle toAfter) rest) sameNext

theorem lowerAll_repeats (each : List.Forall₂ pair.pools.Alike xs ys)
    (same : pair.pools.SameSession session other) :
    pair.Repeats (Solve.lowerAll session xs) (Solve.lowerAll other ys)
      fun next otherNext last => last.pools.SameSession next otherNext := by
  induction xs generalizing pair ys session other with
  | nil =>
    cases each
    exact .pure same
  | cons var xs inductionHypothesis =>
    obtain _ | ⟨alike, rest⟩ := each
    refine .get ((ofLower_repeats same (Pools.lower_repeats alike)).bind
      fun next otherNext after toAfter sameNext => ?_)
    exact inductionHypothesis (Pools.forall₂_mono toAfter rest) sameNext

/-- Alike constraints have the same formula. -/
theorem compile_repeats (options : SolveOptions) (each : List.Forall₂ pair.pools.Alike xs ys) :
    pair.Repeats (Solve.compile xs options) (Solve.compile ys options)
      fun compiled other _ => compiled.cnf = other.cnf := by
  refine .get ?_
  refine (assertAll_repeats each (.start options.flatten)).bind
    fun session other middle toMiddle same => ?_
  have surface := Pools.forall₂_mono toMiddle (Pools.variablesOf_alike each)
  refine (lowerAll_repeats surface same).bind fun session other last _ same => .pure ?_
  rw [same.store]

end Workspaces

namespace Problem

variable {problem other : Problem} {workspace after : Workspace PassMemory} {cnf : Cnf}

theorem compile_eq_ok :
    problem.compile workspace = .ok cnf after ↔
      ∃ compiled, Solve.compile problem.constraints problem.options workspace = .ok compiled after ∧
        compiled.cnf = cnf := by
  unfold compile
  rw [Stateful.bind_eq_ok]
  constructor
  · rintro ⟨compiled, _, ended, ⟨⟩⟩
    exact ⟨compiled, ended, rfl⟩
  · rintro ⟨compiled, ended, rfl⟩
    exact ⟨compiled, after, ended, rfl⟩

/-- Solving a problem asks the engine about one formula and uses the answer. -/
def Asks (problem : Problem) (workspace : Workspace PassMemory) (cnf : Cnf) : Prop :=
  ∃ compiled middle, compiled.cnf = cnf ∧ ∀ engine, (problem.solve engine workspace).1 =
    Solve.conclude compiled problem.options.generator (engine cnf) middle

/-- The engine is asked about the formula to which the problem compiles. -/
theorem asks_of_compile (unsolved : problem.status = .unsolved)
    (ended : problem.compile workspace = .ok cnf after) : problem.Asks workspace cnf := by
  obtain ⟨compiled, isCompiled, rfl⟩ := compile_eq_ok.mp ended
  refine ⟨compiled, after, rfl, fun engine => ?_⟩
  unfold solve
  rw [if_neg (not_not_intro unsolved)]
  dsimp only
  rw [Solve.decide_eq]
  simp only [bind, EStateM.bind, isCompiled]

/-- A problem with alike constraints compiles to the same formula. -/
theorem exists_compile (pair : Workspaces) (options : problem.options = other.options)
    (each : List.Forall₂ pair.pools.Alike problem.constraints other.constraints)
    (ended : problem.compile pair.left = .ok cnf after) :
    ∃ last, other.compile pair.right = .ok cnf last := by
  obtain ⟨compiled, isCompiled, rfl⟩ := compile_eq_ok.mp ended
  obtain ⟨otherCompiled, last, -, otherEnded, -, same⟩ :=
    Workspaces.compile_repeats problem.options each isCompiled
  exact ⟨last.right, compile_eq_ok.mpr ⟨otherCompiled, options ▸ otherEnded, same.symm⟩⟩

/-- A problem compiles to the same formula again. -/
theorem exists_compile_again (coherent : workspace.Coherent)
    (stored : ∀ constraint ∈ problem.constraints, workspace.pool.Has constraint)
    (ended : problem.compile workspace = .ok cnf after) : ∃ last, problem.compile after = .ok cnf last := by
  obtain ⟨compiled, isCompiled, -⟩ := compile_eq_ok.mp ended
  have advances : workspace.Advances after := by
    have keeps : Solve.Keeps (Solve.compile problem.constraints problem.options) workspace :=
      Solve.compile_keeps coherent stored
    have kept := keeps.final
    rwa [Stateful.final, isCompiled] at kept
  refine exists_compile ⟨workspace, after, coherent, advances.coherent coherent⟩ rfl ?_ ended
  exact List.forall₂_same.mpr fun constraint member => ⟨stored constraint member,
    advances.extension.has (stored constraint member),
    (advances.extension.tree_eq (stored constraint member)).symm⟩

end Problem

namespace Workspace

variable {left right : Workspace PassMemory} {problem other : Problem}

/-- The formula of a problem depends on the trees of its constraints and on the
options, not on the history of the workspace. In particular, a problem that is
compiled again has the same formula, and it is the one that the engine is asked
about when the problem is solved. There is a formula if no word has width zero and
the variables can be numbered. -/
theorem Evolved.compile_independent (leftEvolved : left.Evolved) (rightEvolved : right.Evolved)
    (options : problem.options = other.options)
    (alike : List.Forall₂ (fun a b => left.pool.Has a ∧ right.pool.Has b ∧
      left.pool.tree a = right.pool.tree b) problem.constraints other.constraints) :
    (∀ cnf, (∃ after, problem.compile left = .ok cnf after) ↔
      ∃ after, other.compile right = .ok cnf after) ∧
    (∀ cnf after, problem.compile left = .ok cnf after →
      (∃ last, problem.compile after = .ok cnf last) ∧
      (problem.status = .unsolved → problem.Asks after cnf) ∧
      (other.status = .unsolved → other.Asks right cnf)) ∧
    (left.pool.Sized → (∀ constraint ∈ problem.constraints, left.pool.HasTy constraint .bool) →
      Solve.allocated problem.constraints problem.options left < 2 ^ 31 →
      ∃ cnf after, problem.compile left = .ok cnf after) := by
  have leftCoherent := leftEvolved.coherent
  have rightCoherent := rightEvolved.coherent
  have each : List.Forall₂ (Pools.Alike ⟨left.pool, right.pool, leftCoherent.typed, rightCoherent.typed⟩)
      problem.constraints other.constraints := alike.imp fun _ _ same => ⟨same.1, same.2.1, same.2.2⟩
  refine ⟨fun cnf => ⟨?forward, ?backward⟩, fun cnf after ended => ?again, fun sized bools small => ?some⟩
  case forward =>
    rintro ⟨after, ended⟩
    exact Problem.exists_compile ⟨left, right, leftCoherent, rightCoherent⟩ options each ended
  case backward =>
    rintro ⟨after, ended⟩
    refine Problem.exists_compile ⟨right, left, rightCoherent, leftCoherent⟩ options.symm ?_ ended
    exact each.flip.imp fun _ _ same => same.flip
  case again =>
    have stored : ∀ constraint ∈ problem.constraints, left.pool.Has constraint := by
      intro constraint member
      obtain ⟨_, -, same⟩ := exists_of_forall₂_of_mem each member
      exact same.left
    obtain ⟨last, again⟩ := Problem.exists_compile_again leftCoherent stored ended
    obtain ⟨otherLast, otherEnded⟩ :=
      Problem.exists_compile ⟨left, right, leftCoherent, rightCoherent⟩ options each ended
    exact ⟨⟨last, again⟩, fun unsolved => Problem.asks_of_compile unsolved again,
      fun unsolved => Problem.asks_of_compile unsolved otherEnded⟩
  case some =>
    obtain ⟨compiled, after, ended, -, -⟩ :=
      (Solve.compile_yields ⟨leftCoherent, sized⟩ bools small).exists_ok
    exact ⟨compiled.cnf, after, Problem.compile_eq_ok.mpr ⟨compiled, ended, rfl⟩⟩

/-- Two constraints have the same formula where nothing else was done, and where the
variables were declared in the other order and one of the constraints was normalized
before. -/
theorem compile_independent_disjunction :
    ∃ (left right : Workspace PassMemory) (x y either denial u v other refusal : ExprId) (cnf : Cnf),
      left.Evolved ∧ right.Evolved ∧ left.pool.StoresDisjunction x y either denial ∧
      right.pool.StoresDisjunction u v other refusal ∧
      (∃ after, Problem.compile ⟨[either, denial], .standard, .unsolved⟩ left = .ok cnf after) ∧
      (∃ after, Problem.compile ⟨[other, refusal], .standard, .unsolved⟩ right = .ok cnf after) ∧
        Problem.Asks ⟨[other, refusal], .standard, .unsolved⟩ right cnf := by
  obtain ⟨left, x, y, either, denial, reachable, stores⟩ := exists_reachable_disjunction
  obtain ⟨first, v, u, firstReachable, vStored, uStored⟩ :=
    exists_reachable_variables (by decide : "x" ≠ "y")
  obtain ⟨second, other, refusal, secondReachable, secondStores⟩ :=
    firstReachable.exists_disjunction uStored vStored
  have otherStored : second.pool.Has other := Pool.has_iff.mpr ⟨_, secondStores.either⟩
  have normalize : second.Step ((Pass.normalize other).final second) := .normalize otherStored
  have rightStores := secondStores.mono
    (normalize.advances secondReachable.sound.toCoherent).extension
  have rightEvolved := (Reachable.step secondReachable normalize).evolved
  have alike : List.Forall₂ (fun a b => left.pool.Has a ∧
      ((Pass.normalize other).final second).pool.Has b ∧
        left.pool.tree a = ((Pass.normalize other).final second).pool.tree b)
      [either, denial] [other, refusal] := by
    simp [Pool.has_iff, stores.either, stores.denial, rightStores.either, rightStores.denial,
      Pool.tree_apply stores.either, Pool.tree_apply stores.denial, Pool.tree_apply rightStores.either,
      Pool.tree_apply rightStores.denial, Pool.tree_var stores.first, Pool.tree_var stores.second,
      Pool.tree_var rightStores.first, Pool.tree_var rightStores.second]
  let problem : Problem := ⟨[either, denial], .standard, .unsolved⟩
  let otherProblem : Problem := ⟨[other, refusal], .standard, .unsolved⟩
  have options : problem.options = otherProblem.options := rfl
  obtain ⟨independent, asks, succeeds⟩ :=
    reachable.evolved.compile_independent rightEvolved options alike
  obtain ⟨cnf, after, ended⟩ := succeeds reachable.sound.sized
    (by simpa [problem] using ⟨⟨_, stores.either⟩, ⟨_, stores.denial⟩⟩)
    ((Solve.allocated_disjunction_le .standard reachable.sound stores).trans_lt (by decide))
  exact ⟨left, _, x, y, either, denial, u, v, other, refusal, cnf, reachable.evolved, rightEvolved, stores,
    rightStores, ⟨after, ended⟩, (independent cnf).mp ⟨after, ended⟩, (asks cnf after ended).2.2 rfl⟩

end Workspace

end Clausal
