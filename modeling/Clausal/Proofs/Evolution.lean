import Mathlib
import Clausal.Proofs.History

/-!
# Evolution of a workspace

`Workspace.Move` is any operation on a workspace, with words of width zero and with
any key for the leaves of the pool. Lowering only reads the pool, so it is no move.
Every move keeps the workspace coherent, and this is all that the two main results
need: handles stand for trees, and what passes remember is what they compute.
-/

namespace Clausal.Workspace

variable {before after workspace : Workspace PassMemory}

/-- One operation on a workspace, whatever the widths of words are. -/
inductive Move (workspace : Workspace PassMemory) : Workspace PassMemory → Prop where
  | step {after : Workspace PassMemory} (step : workspace.Step after) : Move workspace after
  | var (name : String) (ty : Ty) :
      Move workspace ((Walk.ofBuild (Build.var name ty) : Work ExprId).final workspace)
  | const (ty : Ty) (value : Value) :
      Move workspace ((Walk.ofBuild (Build.const ty value) : Work ExprId).final workspace)

/-- Operations lead from one workspace to another. -/
def Evolves : Workspace PassMemory → Workspace PassMemory → Prop :=
  Relation.ReflTransGen Move

/-- The workspaces that operations lead to, from one without expressions. The number
of buckets and the keys of leaves are arbitrary. -/
def Evolved (workspace : Workspace PassMemory) : Prop :=
  ∃ bits leafKey, Evolves ⟨.empty bits leafKey, ∅⟩ workspace

section Coherence

/-- A later workspace has all nodes of an earlier one and is as coherent. There may be
new words of width zero. -/
structure Grows (before after : Workspace PassMemory) : Prop where
  pool : before.pool.Grows after.pool
  coherent : before.Coherent → after.Coherent

theorem Advances.grows (advances : before.Advances after) : before.Grows after :=
  ⟨advances.pool.toGrows, advances.coherent⟩

theorem grows_ofBuild {action : Build ExprId}
    (grows : workspace.pool.Grows (Stateful.final action workspace.pool)) :
    workspace.Grows ((Walk.ofBuild action : Work ExprId).final workspace) := by
  rw [Work.final_ofBuild]
  exact ⟨grows, fun coherent => coherent.grow grows⟩

theorem Move.grows (move : before.Move after) (coherent : before.Coherent) : before.Grows after := by
  cases move with
  | step step => exact (step.advances coherent).grows
  | var name ty => exact grows_ofBuild (Build.var_grows name ty)
  | const ty value => exact grows_ofBuild (Build.const_makes ty value).keeps.final

theorem Evolves.grows (evolves : before.Evolves after) (coherent : before.Coherent) :
    before.Grows after := by
  induction evolves with
  | refl => exact ⟨refl before.pool, id⟩
  | tail _ move inductionHypothesis =>
    have further := move.grows (inductionHypothesis.coherent coherent)
    exact ⟨IsTrans.trans _ _ _ inductionHypothesis.pool further.pool,
      fun first => further.coherent (inductionHypothesis.coherent first)⟩

theorem Evolved.coherent (evolved : workspace.Evolved) : workspace.Coherent := by
  obtain ⟨bits, leafKey, evolves⟩ := evolved
  have start : Coherent ⟨.empty bits leafKey, ∅⟩ := ⟨Pool.wellTyped_empty bits leafKey, by simp⟩
  exact (evolves.grows start).coherent start

theorem Evolved.evolves (evolved : before.Evolved) (evolves : before.Evolves after) :
    after.Evolved := by
  obtain ⟨bits, leafKey, earlier⟩ := evolved
  exact ⟨bits, leafKey, earlier.trans evolves⟩

theorem Reachable.evolved (reachable : workspace.Reachable) : workspace.Evolved := by
  induction reachable with
  | @start bits workspace made =>
    unfold empty? Pool.empty? at made
    split at made
    · cases made
      exact ⟨bits, _, .refl⟩
    · cases made
  | step _ step inductionHypothesis => exact inductionHypothesis.evolves (.single (.step step))

theorem Evolved.extension (evolved : before.Evolved) (evolves : before.Evolves after) :
    before.pool.Extends after.pool :=
  (evolves.grows evolved.coherent).pool.extension

/-- An operation that succeeds leads to a workspace with its result. -/
theorem Evolved.exists_built {action : Build ExprId} {done : ExprId → Pool → Prop}
    (evolved : workspace.Evolved)
    (move : workspace.Move ((Walk.ofBuild action : Work ExprId).final workspace))
    (yields : Build.Yields action workspace.pool done) :
    ∃ (after : Workspace PassMemory) (e : ExprId),
      after.Evolved ∧ workspace.Evolves after ∧ done e after.pool := by
  obtain ⟨e, pool, ended, -, holds⟩ := yields.exists_ok
  rw [Work.final_ofBuild, Stateful.final, ended] at move
  exact ⟨_, e, evolved.evolves (.single move), .single move, holds⟩

/-- Some workspace has the conjunction of the constants, whatever the keys of leaves
are. -/
theorem exists_evolved_conjunction (bits : Nat) (leafKey : Node → UInt64) :
    ∃ (workspace : Workspace PassMemory) (yes no both : ExprId),
      Evolves ⟨.empty bits leafKey, ∅⟩ workspace ∧
      workspace.pool.node? yes = some ⟨.bool, .const (.bool true)⟩ ∧
      workspace.pool.node? no = some ⟨.bool, .const (.bool false)⟩ ∧
      workspace.pool.node? both = some ⟨.bool, .apply .and [yes, no]⟩ := by
  have start : Evolved ⟨.empty bits leafKey, ∅⟩ := ⟨bits, leafKey, .refl⟩
  obtain ⟨first, yes, firstEvolved, toFirst, yesStored⟩ :=
    start.exists_built (.step (.truth true)) (Build.truth_yields true)
  obtain ⟨second, no, secondEvolved, toSecond, noStored⟩ :=
    firstEvolved.exists_built (.step (.truth false)) (Build.truth_yields false)
  have yesLater := firstEvolved.extension toSecond yesStored
  have applies : second.pool.Applies .and [yes, no] .bool :=
    ⟨⟨[.bool, .bool], .cons ⟨_, yesLater⟩ (.cons ⟨_, noStored⟩ .nil), .and (by simp) (by simp)⟩,
      by simp⟩
  obtain ⟨third, both, -, toThird, bothStored⟩ :=
    secondEvolved.exists_built (.step (.apply .and [yes, no])) (Build.apply_yields applies)
  have extension := secondEvolved.extension toThird
  exact ⟨third, yes, no, both, (toFirst.trans toSecond).trans toThird, extension yesLater,
    extension noStored, bothStored⟩

end Coherence

section Identity

/-- Handles stand for trees: operands come before the expressions they occur in, the
node of an expression never changes, and two stored expressions are the same exactly
if their trees are. -/
theorem Evolved.handles_identify (evolved : workspace.Evolved) :
    (∀ e node, workspace.pool.node? e = some node → ∀ operand ∈ node.operands,
      workspace.pool.Has operand ∧ operand.index < e.index) ∧
    (∀ later, workspace.Evolves later → ∀ e node, workspace.pool.node? e = some node →
      later.pool.node? e = some node) ∧
    ∀ a b, workspace.pool.Has a → workspace.pool.Has b →
      (a = b ↔ workspace.pool.tree a = workspace.pool.tree b) := by
  refine ⟨fun e node found operand member => ?operands, fun later evolves e node found => ?nodes,
    fun a b left right => ?trees⟩
  case operands =>
    exact ⟨Pool.has_of_mem_operands found member, Pool.index_lt_of_node? found member⟩
  case nodes => exact evolved.extension evolves found
  case trees => exact ⟨fun same => same ▸ rfl, evolved.coherent.typed.tree_injective left right⟩

/-- Expressions are told apart although all leaves have the same key. -/
theorem handles_identify_collisions :
    ∃ (workspace : Workspace PassMemory) (yes no both : ExprId),
      Evolves ⟨.empty 0 fun _ => 0, ∅⟩ workspace ∧
      workspace.pool.node? both = some ⟨.bool, .apply .and [yes, no]⟩ ∧
        yes.index < both.index ∧ no.index < both.index ∧ yes ≠ no := by
  obtain ⟨workspace, yes, no, both, evolves, yesStored, noStored, stored⟩ :=
    exists_evolved_conjunction 0 fun _ => 0
  obtain ⟨operands, -, trees⟩ := Evolved.handles_identify ⟨0, _, evolves⟩
  have below : ∀ operand ∈ [yes, no], operand.index < both.index :=
    fun operand member => (operands both _ stored operand member).2
  refine ⟨workspace, yes, no, both, evolves, stored, below yes (by simp), below no (by simp), ?_⟩
  rw [Ne, trees yes no (Pool.has_iff.mpr ⟨_, yesStored⟩) (Pool.has_iff.mpr ⟨_, noStored⟩),
    Pool.tree_const yesStored, Pool.tree_const noStored]
  simp

end Identity

section Memory

/-- What passes remember is what they compute with nothing remembered, and is its own
result. So what a pass makes of an expression depends on the tree of the expression
only, and a pass that was run before returns the same handle again. -/
theorem Evolved.memory_transparent (evolved : workspace.Evolved) :
    (∀ pass e r, workspace.memory[(pass, e)]? = some r →
      (∃ last, Pass.run pass e ⟨workspace.pool, ∅⟩ = .ok r last) ∧
        ∃ last, Pass.run pass r ⟨workspace.pool, ∅⟩ = .ok r last) ∧
    (∀ pass e other x, workspace.pool.Has e → other.Evolved → other.pool.Has x →
      workspace.pool.tree e = other.pool.tree x → ∀ tree,
        ((∃ r last, Pass.run pass e workspace = .ok r last ∧ last.pool.tree r = tree) ↔
          ∃ r last, Pass.run pass x other = .ok r last ∧ last.pool.tree r = tree)) ∧
    ∀ pass e r after, workspace.pool.Has e → Pass.run pass e workspace = .ok r after →
      ∀ later, after.Evolves later → ∃ last, Pass.run pass e later = .ok r last := by
  have coherent := evolved.coherent
  refine ⟨fun pass e r found => ?entries, fun pass e other x stored otherEvolved otherStored same tree => ?trees,
    fun pass e r after stored ended later evolves => ?handles⟩
  case entries =>
    have forgetful : Coherent ⟨workspace.pool, ∅⟩ := ⟨coherent.typed, by simp⟩
    have result := coherent.remembered found
    have resultStored := result.refines.has_right
    exact ⟨Pass.run_eq_ok forgetful result.refines.has_left resultStored result.derives,
      Pass.run_eq_ok forgetful resultStored resultStored (result.self coherent.typed).derives⟩
  case trees =>
    rw [Pass.exists_run_iff coherent stored, Pass.exists_run_iff otherEvolved.coherent otherStored, same]
  case handles =>
    obtain ⟨advances, result⟩ := (Pass.run_tries pass coherent stored).of_ok ended
    have grows := evolves.grows (advances.coherent coherent)
    have later := result.mono grows.pool.extension
    exact Pass.run_eq_ok (grows.coherent (advances.coherent coherent)) later.refines.has_left
      later.refines.has_right later.derives

/-- The order in which canonicalization put the constants is found again. -/
theorem memory_transparent_conjunction :
    ∃ (workspace : Workspace PassMemory) (both r : ExprId), workspace.Evolved ∧
      workspace.memory[(Pass.canonicalize, both)]? = some r ∧
        ∃ last, Pass.run .canonicalize both ⟨workspace.pool, ∅⟩ = .ok r last := by
  obtain ⟨workspace, yes, no, both, evolves, -, -, stored⟩ := exists_evolved_conjunction 0 fun _ => 0
  have evolved : workspace.Evolved := ⟨0, _, evolves⟩
  have isStored : workspace.pool.Has both := Pool.has_iff.mpr ⟨_, stored⟩
  obtain ⟨r, after, ended, -, -⟩ := (Pass.canonicalize_yields evolved.coherent isStored).exists_ok
  have move : workspace.Move after := by
    have last : (Pass.run .canonicalize both).final workspace = after := by
      rw [Stateful.final, ended]
    exact last ▸ .step (.pass .canonicalize isStored)
  have found := Walk.memory_of_bottomUp ended
  have afterEvolved := evolved.evolves (.single move)
  exact ⟨after, both, r, afterEvolved, found, (afterEvolved.memory_transparent.1 _ _ _ found).1⟩

end Memory

end Clausal.Workspace
