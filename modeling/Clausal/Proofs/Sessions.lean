import Mathlib
import Clausal.Proofs.Demand
import Clausal.Proofs.Uses

/-!
# Sessions that are driven by actions

A session may be used for any number of actions, in any order: expressions are lowered or
asserted, some are refused, and the workspace grows in between. It stays exact about what
was asserted (`Driven.exact`), so its satisfying assignments are the values of its variables
under which the asserted expressions are true.
-/

namespace Clausal

namespace Session

variable {pool : Pool} {session : Session}

/-- The sessions that actions lead to, with the expressions that were asserted.
The workspace that has the expressions may be used in between. -/
inductive Driven (flatten : Bool) : Workspace PassMemory → List ExprId → Session → Prop where
  | start {workspace : Workspace PassMemory} (used : workspace.Used) :
      Driven flatten workspace [] (.start flatten)
  | workspace {before after : Workspace PassMemory} {asserted : List ExprId} {session : Session}
      (driven : Driven flatten before asserted session) (use : before.Use after) :
      Driven flatten after asserted session
  | lower {workspace : Workspace PassMemory} {asserted : List ExprId} {session after : Session}
      {e : ExprId} {lits : Array Lit} (driven : Driven flatten workspace asserted session)
      (stored : workspace.pool.Has e)
      (ended : Lower.lower workspace.pool e session = .ok lits after) :
      Driven flatten workspace asserted after
  | refused {workspace : Workspace PassMemory} {asserted : List ExprId} {session after : Session}
      {e : ExprId} {cause : LowerError} (driven : Driven flatten workspace asserted session)
      (stored : workspace.pool.Has e)
      (ended : Lower.lower workspace.pool e session = .error (.error cause) after) :
      Driven flatten workspace asserted after
  | assert {workspace : Workspace PassMemory} {asserted : List ExprId} {session after : Session}
      {e : ExprId} (driven : Driven flatten workspace asserted session)
      (stored : workspace.pool.Has e)
      (ended : Lower.assert workspace.pool e session = .ok () after) :
      Driven flatten workspace (e :: asserted) after

variable {flatten : Bool} {workspace : Workspace PassMemory} {asserted : List ExprId}

theorem Driven.used (driven : Driven flatten workspace asserted session) : workspace.Used := by
  induction driven with
  | start used => exact used
  | workspace _ use inductionHypothesis => exact inductionHypothesis.use use
  | lower _ _ _ inductionHypothesis | refused _ _ _ inductionHypothesis
  | assert _ _ _ inductionHypothesis => exact inductionHypothesis

/-- A session is exact about what was asserted, however it was driven. -/
theorem Driven.exact (driven : Driven flatten workspace asserted session) (live : session.Live) :
    (∀ e ∈ asserted, workspace.pool.Has e) ∧
      session.Exact workspace.pool fun env => ∀ e ∈ asserted, workspace.pool.Accepts env e := by
  induction driven with
  | start used => exact ⟨nofun, (exact_start flatten).congr fun _ => by simp⟩
  | @workspace before after asserted session driven use inductionHypothesis =>
    obtain ⟨stored, exact⟩ := inductionHypothesis live
    have extension := use.extension driven.used.coherent
    refine ⟨fun e member => extension.has (stored e member), (exact.extend extension).congr fun env => ?_⟩
    refine forall₂_congr fun e member => ?_
    rw [Pool.Accepts, Pool.Accepts, extension.evaluate_eq (stored e member)]
  | @lower workspace asserted session after e lits driven isStored ended inductionHypothesis =>
    have earlierLive : session.Live :=
      (((Lower.grows_lower workspace.pool e).keeps session).of_ok ended).trans_lt live
    obtain ⟨stored, exact⟩ := inductionHypothesis earlierLive
    have runs := Lower.lower_runs driven.used.coherent.typed isStored exact earlierLive
    exact ⟨stored, (runs.of_ok ended live).advances.exact exact⟩
  | @refused workspace asserted session after e cause driven isStored ended inductionHypothesis =>
    have earlierLive : session.Live :=
      (((Lower.grows_lower workspace.pool e).keeps session).of_error ended).trans_lt live
    obtain ⟨stored, exact⟩ := inductionHypothesis earlierLive
    have runs := Lower.lower_runs driven.used.coherent.typed isStored exact earlierLive
    obtain ⟨-, -, -, advances⟩ := runs.of_error ended live
    exact ⟨stored, advances.exact exact⟩
  | @assert workspace asserted session after e driven isStored ended inductionHypothesis =>
    have earlierLive : session.Live :=
      (((Lower.grows_assert workspace.pool e).keeps session).of_ok ended).trans_lt live
    obtain ⟨stored, exact⟩ := inductionHypothesis earlierLive
    have runs := Lower.assert_runs driven.used.coherent.typed isStored exact earlierLive
    refine ⟨List.forall_mem_cons.mpr ⟨isStored, stored⟩, (runs.of_ok ended live).exact.congr fun env => ?_⟩
    rw [List.forall_mem_cons, and_comm]

/-- The satisfying assignments of a session are exactly the values of its variables
under which the asserted expressions are true. In a satisfying assignment the
literals of every lowered expression have the bits of its value, and values of the
variables that make the asserted expressions true extend to exactly one satisfying
assignment. -/
theorem satisfying_assignments_of_driven (driven : Driven flatten workspace asserted session)
    (small : session.numVars < 2 ^ 31) :
    (∀ clause ∈ session.store.toList, ∀ lit ∈ clause, lit.var ≤ session.numVars) ∧
      (∀ e lits, (e, lits) ∈ session.surface ↔
        workspace.pool.isVariable e ∧ session.literals[e]? = some lits) ∧
      (∀ truth, session.Satisfied truth →
        (∀ e lits, session.literals[e]? = some lits →
          Encodes workspace.pool (session.readBack workspace.pool truth) truth e lits) ∧
        ∀ e ∈ asserted, workspace.pool.Accepts (session.readBack workspace.pool truth) e) ∧
      ∀ env,
        (∀ entry ∈ session.surface, ∃ ty name value,
          workspace.pool.node? entry.1 = some ⟨ty, .var name⟩ ∧ env name = some value ∧
            ty.admits value) →
        (∀ e ∈ asserted, workspace.pool.Accepts env e) →
        ∃ truth, session.Satisfied truth ∧
          (∀ entry ∈ session.surface, Encodes workspace.pool env truth entry.1 entry.2) ∧
          ∀ other, session.Satisfied other →
            (∀ entry ∈ session.surface, Encodes workspace.pool env other entry.1 entry.2) →
            Assignment.AgreesUpTo session.numVars truth other := by
  obtain ⟨-, exact⟩ := driven.exact small
  have typed := driven.used.coherent.typed
  refine ⟨exact.closed.ranged, exact.surface, fun truth satisfied => ⟨?_, ?_⟩, fun env bound accepts => ?_⟩
  · intro e lits found
    obtain ⟨ty, represents⟩ := exact.cached e lits found
    rw [encodes_iff represents.hasTy represents.row]
    exact represents.means truth _ satisfied (exact.agrees_readBack typed truth)
  · exact exact.sound truth _ satisfied (exact.agrees_readBack typed truth)
  · obtain ⟨truth, satisfied, agrees⟩ := exact.complete env (fun entry member => by
      obtain ⟨ty, name, value, stored, given, admitted⟩ := bound entry member
      exact ⟨value, (Pool.evaluate_var stored).mpr ⟨given, admitted⟩⟩) accepts
    refine ⟨truth, satisfied, exact.agrees_iff.mp agrees, fun other otherSatisfied encodes => ?_⟩
    refine exact.unique truth other satisfied otherSatisfied fun entry member => ?_
    obtain ⟨ty, represents⟩ := exact.represents_surface member
    have same : truth.value ty entry.2 = other.value ty entry.2 := by
      have evaluated := agrees entry member ty represents.hasTy
      rw [(encodes_iff represents.hasTy represents.row).mp (encodes entry member)] at evaluated
      exact (Except.ok.inj evaluated).symm
    rw [← Assignment.encode_value represents.row.size_eq, same,
      Assignment.encode_value represents.row.size_eq]

/-- A boolean with supported operators is asserted if there is room for its variables. -/
theorem Driven.exists_assert {e : ExprId} (driven : Driven flatten workspace asserted session)
    (narrow : session.Narrow workspace.pool) (isBool : workspace.pool.HasTy e .bool)
    (plain : workspace.pool.Plain e)
    (room : session.numVars + (workspace.pool.tree e).demand < 2 ^ 31) :
    ∃ after, Driven flatten workspace (e :: asserted) after ∧ after.Narrow workspace.pool ∧
      after.numVars ≤ session.numVars + (workspace.pool.tree e).demand := by
  have live : session.Live := (Nat.le_add_right _ _).trans_lt room
  have runs := Lower.assert_runs driven.used.coherent.typed isBool.has (driven.exact live).2 live
  have allots := Lower.assert_allots workspace.pool e session narrow
  cases ended : Lower.assert workspace.pool e session with
  | error failure after =>
    obtain ⟨-, -, refused⟩ := runs.of_error ended ((allots.of_error ended).trans_lt room)
    exact (refused ⟨isBool, plain⟩).elim
  | ok result after =>
    obtain ⟨laterNarrow, few, -⟩ := allots.of_ok ended
    exact ⟨after, .assert driven isBool.has ended, laterNarrow, few⟩

/-- A disjunction and the negation of its first operand are asserted. All satisfying
assignments, and there are some, make the first variable false and the second true. -/
theorem satisfying_assignments_of_disjunction :
    ∃ (workspace : Workspace PassMemory) (x y either denial : ExprId) (session : Session),
      workspace.pool.StoresDisjunction x y either denial ∧
      Driven true workspace [denial, either] session ∧ session.numVars < 2 ^ 31 ∧
      (∃ truth, session.Satisfied truth) ∧ ∀ truth, session.Satisfied truth →
        session.readBack workspace.pool truth "x" = some (.bool false) ∧
          session.readBack workspace.pool truth "y" = some (.bool true) := by
  obtain ⟨workspace, x, y, either, denial, reachable, stores⟩ := Workspace.exists_reachable_disjunction
  have demands : (workspace.pool.tree either).demand ≤ 3 ∧ (workspace.pool.tree denial).demand ≤ 1 := by
    simp [Pool.tree_apply stores.either, Pool.tree_apply stores.denial, Pool.tree_var stores.first,
      Pool.tree_var stores.second, Tree.demand, Tree.demands, Op.gates, Ty.bitSize]
  have plain : workspace.pool.Plain either ∧ workspace.pool.Plain denial := by
    have leaves : workspace.pool.Plain x ∧ workspace.pool.Plain y :=
      ⟨Pool.everywhere_leaf (by simp [Pool.op?, stores.first, Node.op?]),
        Pool.everywhere_leaf (by simp [Pool.op?, stores.second, Node.op?])⟩
    exact ⟨(Pool.everywhere_apply stores.either).mpr
        ⟨Grammar.plain_allows rfl (by simp), by simpa using leaves⟩,
      (Pool.everywhere_apply stores.denial).mpr
        ⟨Grammar.plain_allows rfl (by simp), by simpa using leaves.1⟩⟩
  have nothing : (start true).numVars = 0 := rfl
  obtain ⟨first, firstDriven, narrow, fewFirst⟩ :=
    (Driven.start reachable.evolved.used).exists_assert (narrow_start true _) ⟨_, stores.either⟩ plain.1
      (by omega)
  obtain ⟨session, driven, -, few⟩ :=
    firstDriven.exists_assert narrow ⟨_, stores.denial⟩ plain.2 (by omega)
  have small : session.numVars < 2 ^ 31 := by omega
  obtain ⟨-, surface, means, complements⟩ := satisfying_assignments_of_driven driven small
  refine ⟨workspace, x, y, either, denial, session, stores, driven, small, ?_, fun truth satisfied => ?_⟩
  · obtain ⟨env, complete⟩ :=
      reachable.sound.typed.exists_completion fun name => some (.bool (name = "y"))
    have accepts : ∀ e ∈ [denial, either], workspace.pool.Accepts env e := by
      have both := stores.accepts_iff.mpr
        ⟨(complete stores.first).2 _ rfl rfl, (complete stores.second).2 _ rfl rfl⟩
      simpa [and_comm] using both
    obtain ⟨truth, satisfied, -⟩ := complements env (fun entry member => by
      obtain ⟨ty, name, isStored⟩ := Pool.isVariable_iff.mp ((surface entry.1 entry.2).mp member).1
      obtain ⟨value, given, admitted⟩ := (complete isStored).1
      exact ⟨ty, name, value, isStored, given, admitted⟩) accepts
    exact ⟨truth, satisfied⟩
  · exact stores.accepts_iff.mp (by simpa [and_comm] using (means truth satisfied).2)

end Session

end Clausal
