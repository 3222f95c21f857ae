import Mathlib
import Clausal.Proofs.Fixpoints
import Clausal.Proofs.Traversals
import Clausal.Proofs.Uses

/-!
# Walks from the operands up without a memory

`Build.ascend` is the plain recursion behind a walk from the operands up: it rewrites
the operands from left to right, rebuilds the expression with the results and applies
the step. A shared part is rewritten as often as it occurs.

The walk with a memory does the same if the step depends on its node only. Rewriting an
expression again then gives the same result and stores nothing (`ascend_lasts`), and so
a result that was remembered is what the recursion returns. The step is applied to every
node of the expression once, in the order in which the nodes are first completed.
-/

namespace Clausal

namespace Pool

variable {pool before after : Pool} {e x : ExprId} {node : Node}

/-- A node that is stored is found under its name. -/
theorem intern_of_node? (typed : pool.WellTyped) (stored : pool.node? e = some node)
    (known : ∀ operand ∈ node.operands, pool.Has operand) : pool.intern node known = (e, pool) := by
  have found := InternTable.put_of_found (typed.interned.find?_eq_some_iff.mpr stored)
  unfold intern
  split
  rename_i number table isPut
  rw [found] at isPut
  cases isPut
  rfl

/-- The nodes of the tree of an expression, a node behind its operands. Shared parts are
listed as often as they occur. -/
def postorder (pool : Pool) : ExprId → List ExprId :=
  pool.foldTree fun e parts => parts.flatten ++ [e]

theorem postorder_eq (pool : Pool) (e : ExprId) :
    pool.postorder e = (pool.operands e).flatMap pool.postorder ++ [e] := by
  unfold postorder
  rw [foldTree_eq, List.flatMap_def]

/-- Both orders list the same nodes. -/
theorem postorder_perm_preorder (pool : Pool) (e : ExprId) : (pool.postorder e).Perm (pool.preorder e) := by
  induction index : e.index using Nat.strong_induction_on generalizing e with
  | _ size inductionHypothesis =>
  subst index
  rw [postorder_eq, preorder_eq]
  refine (List.perm_append_singleton e _).trans (.cons e ?_)
  exact List.Perm.flatMap_left _ fun operand member =>
    inductionHypothesis _ (index_lt_of_mem_operands member) operand rfl

theorem mem_postorder_iff : x ∈ pool.postorder e ↔ pool.Reaches e x :=
  (postorder_perm_preorder pool e).mem_iff.trans mem_preorder_iff

/-- The nodes of a stored expression are the same in every later pool. -/
theorem Extends.postorder_eq (extension : before.Extends after) (stored : before.Has e) :
    after.postorder e = before.postorder e := by
  induction stored using Has.induction with
  | step e node found inductionHypothesis =>
    have isStored : before.Has e := has_iff.mpr ⟨node, found⟩
    rw [Pool.postorder_eq, Pool.postorder_eq, extension.operands_eq isStored]
    refine congrArg (· ++ [e]) (List.flatMap_congr fun operand member => ?_)
    exact inductionHypothesis operand (operands_of_node? found ▸ member)

end Pool

namespace Build

variable {α β : Type} {pool : Pool} {e : ExprId}

/-- An application that is stored is built without storing anything. -/
theorem apply_of_node? {ty : Ty} {op : Op} {operands : List ExprId} (typed : pool.WellTyped)
    (stored : pool.node? e = some ⟨ty, .apply op operands⟩) : apply op operands pool = .ok e pool := by
  have applies : pool.Applies op operands ty := typed.fits stored
  have known : ∀ operand ∈ operands, pool.Has operand := fun _ => Pool.has_of_mem_operands stored
  have found := Pool.intern_of_node? typed stored known
  unfold apply
  rw [Pool.typing_eq_ok_iff.mpr applies]
  simp only [dif_pos known]
  exact congrArg (fun built => EStateM.Result.ok built.1 built.2) found

/-- An action that succeeded has the same result in every later pool, and stores nothing
there. -/
def Lasts (action : Build α) (pool : Pool) : Prop :=
  ∀ ⦃result : α⦄ ⦃after later : Pool⦄, action pool = .ok result after → after.Constructs later →
    action later = .ok result later

theorem lasts_pure (result : α) : Lasts (pure result) pool := by
  rintro _ _ later ⟨⟩ -
  rfl

theorem Lasts.bind {action : Build α} {next : α → Build β} (first : Lasts action pool)
    (constructive : ∀ result, Constructive (next result))
    (rest : ∀ result after, action pool = .ok result after → Lasts (next result) after) :
    Lasts (action >>= next) pool := by
  intro result last later ended constructs
  obtain ⟨middle, after, isFirst, ended⟩ := Stateful.bind_eq_ok.mp ended
  have further : after.Constructs last := (constructive middle after).of_ok ended
  exact Stateful.bind_eq_ok.mpr ⟨middle, later, first isFirst (further.trans constructs),
    rest middle after isFirst ended constructs⟩

/-- What is read from the pool must be the same in every later pool. -/
theorem Lasts.get {next : Pool → Build α} (same : ∀ later, pool.Constructs later → next later = next pool)
    (constructive : Constructive (next pool)) (rest : Lasts (next pool) pool) :
    Lasts (MonadState.get >>= next) pool := by
  intro result after later ended constructs
  have further : pool.Constructs after := (constructive pool).of_ok ended
  change next later later = _
  rw [same later (further.trans constructs)]
  exact rest ended constructs

theorem Lasts.mapM {items : List α} {step : α → Build ExprId}
    (constructive : ∀ item ∈ items, Constructive (step item))
    (each : ∀ item ∈ items, ∀ after, pool.Constructs after → Lasts (step item) after) :
    Lasts (items.mapM step) pool := by
  induction items generalizing pool with
  | nil => exact lasts_pure []
  | cons item items inductionHypothesis =>
    rw [List.forall_mem_cons] at each constructive
    rw [List.mapM_cons]
    have rest := constructive_mapM constructive.2
    refine (each.1 pool .refl).bind (fun first => rest.bind fun _ => constructive_pure _)
      fun first after ended => ?_
    have toAfter : pool.Constructs after := (constructive.1 pool).of_ok ended
    refine (inductionHypothesis constructive.2 fun other member last toLast =>
      each.2 other member last (toAfter.trans toLast)).bind (fun _ => constructive_pure _) ?_
    exact fun others last _ => lasts_pure (first :: others)

/-- What was applied is found again. -/
theorem lasts_apply (typed : pool.WellTyped) (op : Op) (operands : List ExprId) :
    Lasts (apply op operands) pool := by
  intro result after later ended constructs
  obtain ⟨grows, ty, stored⟩ := (apply_makes op operands).of_ok ended
  have laterTyped := constructs.grows.wellTyped (grows.wellTyped typed)
  exact apply_of_node? laterTyped (constructs.grows.extension stored)

/-- A step depends only on the node that it is given: what it builds is made by
constructions, and applied again to a node it returns the same and stores nothing. -/
structure Steady (step : ExprId → Build ExprId) : Prop where
  constructive : ∀ e, Constructive (step e)
  lasts : ∀ {pool : Pool} {e : ExprId}, pool.WellTyped → pool.Has e → Lasts (step e) pool

/-- An expression with other operands: its operator is applied to them if one of them
changed. Otherwise, and if it is a leaf, the expression stays as it is. -/
def reapply (e : ExprId) (found : Option Node) (new : List ExprId) : Build ExprId :=
  match found with
  | some ⟨_, .apply op operands⟩ => if new = operands then return e else apply op new
  | _ => return e

/-- The expression with its operands rewritten by a step, from left to right: an operand is
rebuilt itself, and the step is applied to what it was rebuilt to. -/
def rebuild (step : ExprId → Build ExprId) (e : ExprId) : Build ExprId := do
  let pool ← get
  let new ← (pool.operands e).attach.mapM fun ⟨operand, _⟩ => rebuild step operand >>= step
  reapply e (pool.node? e) new
termination_by e.index
decreasing_by
  rename_i member
  exact Pool.index_lt_of_mem_operands member

/-- Rewrite an expression by a step: its operands first, then the expression with the
results in their places. -/
def ascend (step : ExprId → Build ExprId) (e : ExprId) : Build ExprId :=
  rebuild step e >>= step

variable {step : ExprId → Build ExprId}

theorem rebuild_eq (step : ExprId → Build ExprId) (e : ExprId) :
    rebuild step e = (do
      let pool ← get
      let new ← (pool.operands e).mapM (ascend step)
      reapply e (pool.node? e) new) := by
  rw [rebuild]
  refine bind_congr fun pool => ?_
  exact congrArg (· >>= _) (mapM_attach (pool.operands e) (ascend step))

theorem constructive_reapply (e : ExprId) (found : Option Node) (new : List ExprId) :
    Constructive (reapply e found new) := by
  intro pool
  unfold reapply
  split
  · split
    · exact constructive_pure e pool
    · exact constructive_apply _ new pool
  · exact constructive_pure e pool

theorem lasts_reapply (typed : pool.WellTyped) (e : ExprId) (found : Option Node) (new : List ExprId) :
    Lasts (reapply e found new) pool := by
  unfold reapply
  split
  · split
    · exact lasts_pure e
    · exact lasts_apply typed _ new
  · exact lasts_pure e

/-- What an expression is rebuilt to is stored. -/
theorem has_of_reapply {found : Option Node} {new : List ExprId} {same : ExprId} {after : Pool}
    (stored : pool.Has e) (ended : reapply e found new pool = .ok same after) : after.Has same := by
  unfold reapply at ended
  split at ended
  · split at ended
    · cases ended
      exact stored
    · obtain ⟨-, ty, isStored⟩ := (apply_makes _ new).of_ok ended
      exact Pool.has_iff.mpr ⟨_, isStored⟩
  · cases ended
    exact stored

/-- A walk with a memory rebuilds an expression in the same way, from a node that it reads
later. -/
theorem withOperands_eq_reapply {before after : Pool} (extension : before.Extends after)
    (stored : before.Has e) (new : List ExprId) :
    Walk.withOperands e (before.operands e) new after = reapply e (before.node? e) new after := by
  obtain ⟨⟨ty, form⟩, found⟩ := Pool.has_iff.mp stored
  have later := extension found
  rw [Pool.operands_of_node? found, found]
  unfold Walk.withOperands
  cases form with
  | var name | const value =>
    split
    · rfl
    · have leaf : after.op? e = none := by simp [Pool.op?, later, Node.op?]
      rw [Stateful.get_bind, leaf]
      rfl
  | apply op operands =>
    rw [Node.operands_apply]
    simp only [reapply]
    split
    · rfl
    · rw [Stateful.get_bind, Pool.op?_of_apply later]

theorem constructive_ascend (steady : Steady step) (e : ExprId) : Constructive (ascend step e) := by
  induction index : e.index using Nat.strong_induction_on generalizing e with
  | _ size inductionHypothesis =>
  subst index
  refine Constructive.bind (fun pool => ?_) steady.constructive
  rw [rebuild_eq]
  refine Stateful.Keeps.get ?_
  refine (constructive_mapM fun operand member => ?_).bind
    (fun new => constructive_reapply e (pool.node? e) new) pool
  exact inductionHypothesis _ (Pool.index_lt_of_mem_operands member) operand rfl

theorem constructive_rebuild (steady : Steady step) (e : ExprId) : Constructive (rebuild step e) := by
  intro pool
  rw [rebuild_eq]
  exact Stateful.Keeps.get ((constructive_mapM fun operand _ => constructive_ascend steady operand).bind
    (fun new => constructive_reapply e (pool.node? e) new) pool)

theorem has_of_rebuild (steady : Steady step) {same : ExprId} {after : Pool} (stored : pool.Has e)
    (ended : rebuild step e pool = .ok same after) : after.Has same := by
  rw [rebuild_eq] at ended
  obtain ⟨_, _, ⟨⟩, ended⟩ := Stateful.bind_eq_ok.mp ended
  obtain ⟨new, middle, rewritten, ended⟩ := Stateful.bind_eq_ok.mp ended
  have constructs : pool.Constructs middle :=
    (constructive_mapM (fun operand _ => constructive_ascend steady operand) pool).of_ok rewritten
  exact has_of_reapply (constructs.grows.extension.has stored) ended

/-- The expression to which the step is applied is the same in every later pool, and so
is the result. -/
theorem ascend_lasts (steady : Steady step) (typed : pool.WellTyped) (stored : pool.Has e) :
    Lasts (rebuild step e) pool ∧ Lasts (ascend step e) pool := by
  induction index : e.index using Nat.strong_induction_on generalizing e pool with
  | _ size inductionHypothesis =>
  subst index
  have each : ∀ operand ∈ pool.operands e, ∀ after, pool.Constructs after →
      Lasts (ascend step operand) after := by
    intro operand member after constructs
    have grows := constructs.grows
    exact (inductionHypothesis _ (Pool.index_lt_of_mem_operands member) (grows.wellTyped typed)
      (grows.extension.has (Pool.Reaches.has (.single member) stored)) rfl).2
  have operandsConstructive : ∀ operand ∈ pool.operands e, Constructive (ascend step operand) :=
    fun operand _ => constructive_ascend steady operand
  have rebuilding : Lasts (rebuild step e) pool := by
    rw [rebuild_eq]
    refine .get (fun later constructs => ?_) ?_ ?_
    · have extension := constructs.grows.extension
      rw [extension.operands_eq stored, extension.node?_eq stored]
    · exact (constructive_mapM operandsConstructive).bind fun new => constructive_reapply e _ new
    · refine (Lasts.mapM operandsConstructive each).bind (fun new => constructive_reapply e _ new)
        fun new after ended => ?_
      have grows := ((constructive_mapM operandsConstructive pool).of_ok ended : pool.Constructs after).grows
      exact lasts_reapply (grows.wellTyped typed) e _ new
  refine ⟨rebuilding, ?_⟩
  refine rebuilding.bind steady.constructive fun same after ended => ?_
  have constructs : pool.Constructs after := (constructive_rebuild steady e pool).of_ok ended
  exact steady.lasts (constructs.grows.wellTyped typed) (has_of_rebuild steady stored ended)

end Build

namespace Walk

variable {α β σ : Type} {pool : Pool} {memory : σ}

/-- A walk ends as an action does, in the same pool: with the same failure, or with the
same result and a memory for which `done` holds. -/
structure Mirrors (walk : Walk σ α) (action : Build α) (pool : Pool) (memory : σ)
    (done : α → Pool → σ → Prop) : Prop where
  ok : ∀ result after, action pool = .ok result after →
    ∃ last, walk ⟨pool, memory⟩ = .ok result ⟨after, last⟩ ∧ done result after last
  error : ∀ failure after, action pool = .error failure after →
    ∃ last, walk ⟨pool, memory⟩ = .error failure ⟨after, last⟩

namespace Mirrors

/-- Only what walk and action do in the pool at hand matters. -/
theorem of_eq {walk otherWalk : Walk σ α} {action other : Build α} {otherMemory : σ}
    {done : α → Pool → σ → Prop} (mirrors : Mirrors otherWalk other pool otherMemory done)
    (walkSame : walk ⟨pool, memory⟩ = otherWalk ⟨pool, otherMemory⟩)
    (same : action pool = other pool) :
    Mirrors walk action pool memory done := by
  refine ⟨?_, ?_⟩
  · rw [walkSame, same]
    exact mirrors.ok
  · rw [walkSame, same]
    exact mirrors.error

theorem ofBuild (action : Build α) :
    Mirrors (Walk.ofBuild action) action pool memory fun _ _ last => last = memory := by
  refine ⟨fun result after ended => ⟨memory, ?_, rfl⟩, fun failure after ended => ⟨memory, ?_⟩⟩
  · simp only [Walk.ofBuild, ended]
  · simp only [Walk.ofBuild, ended]

theorem bind {walk : Walk σ α} {action : Build α} {walkNext : α → Walk σ β} {next : α → Build β}
    {middle : α → Pool → σ → Prop} {done : β → Pool → σ → Prop}
    (first : Mirrors walk action pool memory middle)
    (rest : ∀ result after last, action pool = .ok result after → middle result after last →
      Mirrors (walkNext result) (next result) after last done) :
    Mirrors (walk >>= walkNext) (action >>= next) pool memory done := by
  constructor
  · intro result last ended
    obtain ⟨found, after, isFirst, ended⟩ := Stateful.bind_eq_ok.mp ended
    obtain ⟨between, walked, holds⟩ := first.ok found after isFirst
    obtain ⟨final, finished, isDone⟩ := (rest found after between isFirst holds).ok result last ended
    exact ⟨final, Stateful.bind_eq_ok.mpr ⟨found, _, walked, finished⟩, isDone⟩
  · intro failure last ended
    rcases Stateful.bind_eq_error.mp ended with failed | ⟨found, after, isFirst, failed⟩
    · obtain ⟨final, walked⟩ := first.error failure last failed
      exact ⟨final, Stateful.bind_eq_error.mpr (.inl walked)⟩
    · obtain ⟨between, walked, holds⟩ := first.ok found after isFirst
      obtain ⟨final, finished⟩ := (rest found after between isFirst holds).error failure last failed
      exact ⟨final, Stateful.bind_eq_error.mpr (.inr ⟨found, _, walked, finished⟩)⟩

theorem mono {walk : Walk σ α} {action : Build α} {done weaker : α → Pool → σ → Prop}
    (mirrors : Mirrors walk action pool memory done)
    (results : ∀ result after last, action pool = .ok result after → done result after last →
      weaker result after last) : Mirrors walk action pool memory weaker := by
  refine ⟨fun result after ended => ?_, mirrors.error⟩
  obtain ⟨last, walked, holds⟩ := mirrors.ok result after ended
  exact ⟨last, walked, results result after last ended holds⟩

theorem pure {result : α} {done : α → Pool → σ → Prop} (holds : done result pool memory) :
    Mirrors (Pure.pure result) (Pure.pure result) pool memory done := by
  refine ⟨?_, fun failure after failed => by cases failed⟩
  rintro _ _ ⟨⟩
  exact ⟨memory, rfl, holds⟩

/-- The result of an action may be remembered. -/
theorem remember (memo : Memo σ) (e : ExprId) {walk : Walk σ ExprId} {action : Build ExprId}
    {middle done : ExprId → Pool → σ → Prop} (mirrors : Mirrors walk action pool memory middle)
    (recorded : ∀ result after last, action pool = .ok result after → middle result after last →
      done result after (memo.record last e result)) :
    Mirrors (do let result ← walk; Walk.remember memo e result; return result) action pool memory done := by
  have same : action = action >>= Pure.pure := (bind_pure action).symm
  rw [same]
  refine mirrors.bind fun result after last ended holds => ⟨?_, fun failure final failed => by cases failed⟩
  rintro _ _ ⟨⟩
  exact ⟨_, rfl, recorded result after last ended holds⟩

end Mirrors

end Walk

namespace Trace

open Build

variable {step : ExprId → Build ExprId} {pool before after : Pool} {trail : List ExprId}
  {trace : Trace} {e : ExprId}

/-- A trace has treated the nodes of a trail and what occurs in them. It remembers what
the recursion returns for them, and the step was applied to each of them once, in the
order of first occurrence. -/
structure Records (step : ExprId → Build ExprId) (pool : Pool) (trail : List ExprId) (trace : Trace) :
    Prop where
  known : ∀ x, x ∈ trace.results ↔ x ∈ trail
  stored : ∀ x ∈ trail, pool.Has x
  covers : ∀ x ∈ trail, ∀ y, pool.Reaches x y → y ∈ trail
  results : ∀ x r, trace.results[x]? = some r → ascend step x pool = .ok r pool
  visits : List.Forall₂ (fun x given => rebuild step x pool = .ok given pool) (firsts trail)
    trace.visits.toList

namespace Records

theorem empty (step : ExprId → Build ExprId) (pool : Pool) : Records step pool [] .empty := by
  refine ⟨?_, nofun, nofun, ?_, .nil⟩
  · simp [Trace.empty]
  · simp [Trace.empty]

/-- What was treated stays treated while the pool grows. -/
theorem later (records : Records step before trail trace) (steady : Steady step)
    (typed : before.WellTyped) (constructs : before.Constructs after) :
    Records step after trail trace := by
  have extension := constructs.grows.extension
  refine ⟨records.known, fun x member => extension.has (records.stored x member), ?_, ?_, ?_⟩
  · intro x member y reaches
    exact records.covers x member y ((extension.reaches_iff (records.stored x member)).mp reaches)
  · intro x r found
    have member : x ∈ trail := (records.known x).mp
      (Std.HashMap.mem_iff_isSome_getElem?.mpr (by simp [found]))
    exact (ascend_lasts steady typed (records.stored x member)).2 (records.results x r found) constructs
  · refine forall₂_imp_of_mem records.visits fun x member given rebuilt => ?_
    exact (ascend_lasts steady typed (records.stored x (mem_firsts.mp member))).1 rebuilt constructs

/-- Nodes that were treated may be met again. -/
theorem append {more : List ExprId} (records : Records step pool trail trace)
    (known : ∀ x ∈ more, x ∈ trail) : Records step pool (trail ++ more) trace := by
  have same : ∀ x, x ∈ trail ++ more ↔ x ∈ trail := fun x =>
    List.mem_append.trans ⟨fun member => member.elim id (known x), .inl⟩
  refine ⟨fun x => (records.known x).trans (same x).symm, fun x member => ?_, fun x member y reaches => ?_,
    records.results, ?_⟩
  · exact records.stored x ((same x).mp member)
  · exact (same y).mpr (records.covers x ((same x).mp member) y reaches)
  · rw [firsts_append_of_forall_mem known]
    exact records.visits

/-- A node is treated after its operands. -/
theorem concat {given r : ExprId} (records : Records step pool trail trace) (new : e ∉ trail)
    (stored : pool.Has e) (operands : ∀ operand ∈ pool.operands e, operand ∈ trail)
    (rebuilt : rebuild step e pool = .ok given pool) (result : ascend step e pool = .ok r pool) :
    Records step pool (trail ++ [e]) ⟨trace.results.insert e r, trace.visits.push given⟩ := by
  refine ⟨fun x => ?known, fun x member => ?stored, fun x member y reaches => ?covers,
    fun x found known => ?results, ?visits⟩
  case known =>
    rw [Std.HashMap.mem_insert, List.mem_append, List.mem_singleton, records.known, beq_iff_eq, or_comm,
      eq_comm]
  case stored =>
    rcases List.mem_append.mp member with inside | same
    · exact records.stored x inside
    · rwa [List.mem_singleton.mp same]
  case covers =>
    rcases List.mem_append.mp member with inside | same
    · exact List.mem_append_left _ (records.covers x inside y reaches)
    · rw [List.mem_singleton.mp same] at reaches
      rcases Relation.ReflTransGen.cases_head reaches with rfl | ⟨operand, isOperand, further⟩
      · exact List.mem_append_right _ (List.mem_singleton_self e)
      · exact List.mem_append_left _ (records.covers operand (operands operand isOperand) y further)
  case results =>
    rw [Std.HashMap.getElem?_insert] at known
    split at known
    · rename_i same
      cases known
      rwa [← eq_of_beq same]
    · exact records.results x found known
  case visits =>
    rw [firsts_append_of_notMem new, Array.toList_push]
    exact List.rel_append records.visits (.cons rebuilt .nil)

end Records

/-- A walk from the operands up does what the recursion does, and treats the nodes of the
expression that were not treated before. -/
abbrev Ascends (step : ExprId → Build ExprId) (walk : Walk Trace ExprId) (e : ExprId) : Prop :=
  ∀ {pool : Pool} {trail : List ExprId} {trace : Trace}, pool.WellTyped → pool.Has e →
    Records step pool trail trace → Walk.Mirrors walk (ascend step e) pool trace
      fun _ after last => Records step after (trail ++ pool.postorder e) last

theorem mapM_mirrors {walk : ExprId → Walk Trace ExprId} {items : List ExprId} (steady : Steady step)
    (each : ∀ item ∈ items, Ascends step (walk item) item) (typed : pool.WellTyped)
    (stored : ∀ item ∈ items, pool.Has item) (records : Records step pool trail trace) :
    Walk.Mirrors (items.mapM walk) (items.mapM (ascend step)) pool trace
      fun _ after last => Records step after (trail ++ items.flatMap pool.postorder) last := by
  induction items generalizing pool trail trace with
  | nil => exact .pure (by simpa using records)
  | cons item items inductionHypothesis =>
    rw [List.forall_mem_cons] at each stored
    rw [List.mapM_cons, List.mapM_cons]
    refine (each.1 typed stored.1 records).bind fun first after last ended recorded => ?_
    have grows := ((constructive_ascend steady item pool).of_ok ended : pool.Constructs after).grows
    have storedLater : ∀ other ∈ items, after.Has other := fun other member =>
      grows.extension.has (stored.2 other member)
    refine (inductionHypothesis each.2 (grows.wellTyped typed) storedLater recorded).bind ?_
    intro others final trace _ recorded
    have same : items.flatMap after.postorder = items.flatMap pool.postorder :=
      List.flatMap_congr fun other member => grows.extension.postorder_eq (stored.2 other member)
    rw [same, List.append_assoc, ← List.flatMap_cons] at recorded
    exact .pure recorded

/-- The step is noted and applied. -/
theorem noting_mirrors (step : ExprId → Build ExprId) (e : ExprId) :
    Walk.Mirrors (noting step e) (step e) pool trace
      fun _ _ last => last = { trace with visits := trace.visits.push e } := by
  have applied : Walk.Mirrors (Walk.ofBuild (step e)) (step e) pool
      { trace with visits := trace.visits.push e } fun _ _ last => last = _ := .ofBuild (step e)
  exact applied.of_eq rfl rfl

section Miss

variable {walk : ExprId → Walk Trace ExprId} (steady : Steady step)
  (each : ∀ operand ∈ pool.operands e, Ascends step (walk operand) operand) (typed : pool.WellTyped)
  (stored : pool.Has e) (records : Records step pool trail trace)
include steady each typed stored records

/-- The operands are treated, and the expression is rebuilt with the results. -/
theorem rebuild_mirrors :
    Walk.Mirrors
      (do let new ← (pool.operands e).mapM walk; Walk.ofBuild (Walk.withOperands e (pool.operands e) new))
      (rebuild step e) pool trace fun given after last =>
        Records step after (trail ++ (pool.operands e).flatMap pool.postorder) last ∧
          rebuild step e after = .ok given after := by
  have storedOperands : ∀ operand ∈ pool.operands e, pool.Has operand := fun operand member =>
    Pool.Reaches.has (.single member) stored
  have treated := mapM_mirrors steady each typed storedOperands records
  suffices rebuilt : Walk.Mirrors _ (rebuild step e) pool trace fun _ after last =>
      Records step after (trail ++ (pool.operands e).flatMap pool.postorder) last from
    rebuilt.mono fun given after last ended recorded =>
      ⟨recorded, (ascend_lasts steady typed stored).1 ended .refl⟩
  rw [rebuild_eq]
  refine Walk.Mirrors.of_eq (treated.bind fun new first last ended recorded => ?_) rfl rfl
  have toFirst : pool.Constructs first :=
    (constructive_mapM (fun operand _ => constructive_ascend steady operand) pool).of_ok ended
  have same := withOperands_eq_reapply toFirst.grows.extension stored new
  refine (Walk.Mirrors.ofBuild (Walk.withOperands e (pool.operands e) new)).of_eq rfl same.symm |>.mono ?_
  rintro given second _ isGiven rfl
  have toSecond : first.Constructs second := (constructive_reapply e _ new first).of_ok isGiven
  exact recorded.later steady (toFirst.grows.wellTyped typed) toSecond

/-- The step is applied to the rebuilt expression, which is noted. -/
theorem step_mirrors :
    Walk.Mirrors
      (do
        let new ← (pool.operands e).mapM walk
        let given ← Walk.ofBuild (Walk.withOperands e (pool.operands e) new)
        noting step given)
      (ascend step e) pool trace fun _ after last => ∃ given visits,
        Records step after (trail ++ (pool.operands e).flatMap pool.postorder) ⟨last.results, visits⟩ ∧
          rebuild step e after = .ok given after ∧ last.visits = visits.push given := by
  rw [← bind_assoc]
  refine (rebuild_mirrors steady each typed stored records).bind ?_
  rintro given second last isGiven ⟨recorded, rebuilt⟩
  refine (noting_mirrors step given).mono ?_
  rintro r third _ isResult rfl
  have toSecond : pool.Constructs second := (constructive_rebuild steady e pool).of_ok isGiven
  have toThird : second.Constructs third := (steady.constructive given second).of_ok isResult
  have secondTyped := toSecond.grows.wellTyped typed
  have secondStored := toSecond.grows.extension.has stored
  exact ⟨given, last.visits, recorded.later steady secondTyped toThird,
    (ascend_lasts steady secondTyped secondStored).1 rebuilt toThird, rfl⟩

end Miss

theorem bottomUp_ascends (steady : Steady step) (e : ExprId) :
    Ascends step (Walk.bottomUp memo (noting step) e) e := by
  induction index : e.index using Nat.strong_induction_on generalizing e with
  | _ size inductionHypothesis =>
  subst index
  intro pool trail trace typed stored records
  rw [Walk.bottomUp_eq]
  cases hit : trace.results[e]? with
  | some r =>
    have member : e ∈ trail := (records.known e).mp
      (Std.HashMap.mem_iff_isSome_getElem?.mpr (by simp [hit]))
    have recorded : Records step pool (trail ++ pool.postorder e) trace :=
      records.append fun x inside => records.covers e member x (Pool.mem_postorder_iff.mp inside)
    refine Walk.Mirrors.of_eq (.pure recorded) ?_ (records.results e r hit)
    rw [Walk.lookUp_bind, show memo.find? trace e = some r from hit]
  | none =>
    have each : ∀ operand ∈ pool.operands e,
        Ascends step (Walk.bottomUp memo (noting step) operand) operand := fun operand member =>
      inductionHypothesis _ (Pool.index_lt_of_mem_operands member) operand rfl
    have treated := step_mirrors steady each typed stored records
    refine Walk.Mirrors.of_eq (treated.remember memo e ?_) ?_ rfl
    · rintro r after last ended ⟨given, visits, recorded, rebuilt, noted⟩
      have constructs : pool.Constructs after := (constructive_ascend steady e pool).of_ok ended
      have extension := constructs.grows.extension
      have new : e ∉ trail ++ (pool.operands e).flatMap pool.postorder := by
        intro member
        rcases List.mem_append.mp member with inside | inside
        · have known := Std.HashMap.mem_iff_isSome_getElem?.mp ((records.known e).mpr inside)
          rw [hit] at known
          cases known
        · obtain ⟨operand, isOperand, occurs⟩ := List.mem_flatMap.mp inside
          have below := Pool.index_lt_of_mem_operands isOperand
          exact below.not_ge (Pool.mem_postorder_iff.mp occurs).index_le
      have operands : ∀ operand ∈ after.operands e,
          operand ∈ trail ++ (pool.operands e).flatMap pool.postorder := by
        rw [extension.operands_eq stored]
        exact fun operand member => List.mem_append_right _
          (List.mem_flatMap.mpr ⟨operand, member, Pool.mem_postorder_iff.mpr .refl⟩)
      have result := (ascend_lasts steady typed stored).2 ended .refl
      have concat := recorded.concat new (extension.has stored) operands rebuilt result
      rw [← noted] at concat
      rw [Pool.postorder_eq, ← List.append_assoc]
      exact concat
    · rw [Walk.lookUp_bind, show memo.find? trace e = none from hit]
      simp only [bind_assoc]
      rfl

end Trace

namespace Build

variable {step : ExprId → Build ExprId} {pool : Pool} {e : ExprId}

/-- The steps of the model are steady. -/
theorem steady_steps : (∀ target replacement, Steady (replacing target replacement)) ∧
    ∀ old new, Steady (relabelling old new) := by
  refine ⟨fun _ _ => ⟨fun _ => constructive_pure _, fun _ _ => lasts_pure _⟩, fun old new => ?_⟩
  have constructive : ∀ (pool : Pool) (e : ExprId), Constructive
      (if pool.op? e = some old then apply new (pool.operands e) else pure e) := by
    intro pool e
    split
    · exact constructive_apply _ _
    · exact constructive_pure e
  refine ⟨fun e pool => Stateful.Keeps.get (constructive pool e pool), fun {pool e} typed stored => ?_⟩
  refine .get (fun later constructs => ?_) (constructive pool e) ?_
  · have extension := constructs.grows.extension
    rw [extension.op?_eq stored, extension.operands_eq stored]
  · split
    · exact lasts_apply typed _ _
    · exact lasts_pure e

/-- The traced walk ends as the recursion does. -/
theorem bottomUp_mirrors (steady : Steady step) (typed : pool.WellTyped) (stored : pool.Has e) :
    Walk.Mirrors (Walk.bottomUp Trace.memo (Trace.noting step) e) (ascend step e) pool .empty
      fun _ after last => List.Forall₂ (fun x given => rebuild step x after = .ok given after)
        (firsts (pool.postorder e)) last.visits.toList :=
  (Trace.bottomUp_ascends steady e typed stored (.empty step pool)).mono
    fun _ _ _ _ recorded => recorded.visits

end Build

/-- A walk from the operands up with a memory ends as the recursion without one does, with
the same result or the same failure and in the same pool. If it succeeds, the step was
applied once for every node that occurs in the expression, in the order in which the
nodes are first completed, and each time to what the node was rebuilt to. -/
theorem Workspace.Used.bottomUp_eq_ascend {workspace : Workspace PassMemory}
    {step : ExprId → Build ExprId} {e : ExprId} (used : workspace.Used) (steady : Build.Steady step)
    (stored : workspace.pool.Has e) :
    (∀ r after, Build.ascend step e workspace.pool = .ok r after →
      ∃ visits, Build.bottomUp step e workspace.pool = (.ok r, visits, after) ∧
        List.Forall₂ (fun x given => Build.rebuild step x after = .ok given after)
          (firsts (workspace.pool.postorder e)) visits) ∧
    (∀ failure after, Build.ascend step e workspace.pool = .error failure after →
      ∃ visits, Build.bottomUp step e workspace.pool = (.error failure, visits, after)) ∧
    (firsts (workspace.pool.postorder e)).Nodup ∧
    ∀ x, x ∈ firsts (workspace.pool.postorder e) ↔ workspace.pool.Reaches e x := by
  have mirrors := Build.bottomUp_mirrors steady used.coherent.typed stored
  refine ⟨fun r after ended => ?results, fun failure after failed => ?failures, nodup_firsts,
    fun x => mem_firsts.trans Pool.mem_postorder_iff⟩
  case results =>
    obtain ⟨last, walked, visits⟩ := mirrors.ok r after ended
    refine ⟨last.visits.toList, ?_, visits⟩
    simp only [Build.bottomUp, Build.runTraced, walked]
  case failures =>
    obtain ⟨last, walked⟩ := mirrors.error failure after failed
    refine ⟨last.visits.toList, ?_⟩
    simp only [Build.bottomUp, Build.runTraced, walked]

section Replacing

open Build

variable {step : ExprId → Build ExprId} {pool middle after : Pool} {e : ExprId} {ty : Ty}

/-- A variable is not rebuilt. -/
theorem Build.rebuild_var {name : String} (stored : pool.node? e = some ⟨ty, .var name⟩) :
    rebuild step e pool = .ok e pool := by
  rw [rebuild_eq, Stateful.get_bind, Pool.operands_of_node? stored, stored]
  rfl

/-- An application is rebuilt with the results for its operands if one of them changed. -/
theorem Build.rebuild_of_changed {op : Op} {operands new : List ExprId} {r : ExprId}
    (stored : pool.node? e = some ⟨ty, .apply op operands⟩)
    (rewritten : operands.mapM (ascend step) pool = .ok new middle) (changed : new ≠ operands)
    (built : apply op new middle = .ok r after) : rebuild step e pool = .ok r after := by
  rw [rebuild_eq, Stateful.get_bind, Pool.operands_of_node? stored, stored]
  refine Stateful.bind_eq_ok.mpr ⟨new, middle, rewritten, ?_⟩
  rw [reapply, if_neg changed]
  exact built

/-- The operands of a gate are rewritten one after the other. -/
theorem Build.mapM_ascend_pair {a b first second : ExprId}
    (firstEnded : ascend step a pool = .ok first middle)
    (secondEnded : ascend step b middle = .ok second after) :
    [a, b].mapM (ascend step) pool = .ok [first, second] after := by
  simp only [List.mapM_cons, List.mapM_nil]
  refine Stateful.bind_eq_ok.mpr ⟨first, middle, firstEnded, ?_⟩
  refine Stateful.bind_eq_ok.mpr ⟨[second], after, ?_, rfl⟩
  exact Stateful.bind_eq_ok.mpr ⟨second, after, secondEnded, rfl⟩

theorem Build.ascend_replacing {target replacement r : ExprId}
    (rebuilt : rebuild (replacing target replacement) e pool = .ok r after) :
    ascend (replacing target replacement) e pool = .ok (if r = target then replacement else r) after :=
  Stateful.bind_eq_ok.mpr ⟨r, after, rebuilt, rfl⟩

/-- A conjunction of two variables occurs twice in an expression. -/
structure Pool.StoresTwice (pool : Pool) (x y both twice : ExprId) : Prop where
  first : pool.node? x = some ⟨.bool, .var "x"⟩
  second : pool.node? y = some ⟨.bool, .var "y"⟩
  conjunction : pool.node? both = some ⟨.bool, .apply .and [x, y]⟩
  disjunction : pool.node? twice = some ⟨.bool, .apply .or [both, both]⟩

namespace Pool.StoresTwice

variable {x y both twice : ExprId}

theorem differ (stores : pool.StoresTwice x y both twice) : y ≠ x := by
  rintro rfl
  simpa [stores.first] using stores.second

theorem postorder_eq (stores : pool.StoresTwice x y both twice) :
    pool.postorder twice = [x, y, both, x, y, both, twice] := by
  simp [Pool.postorder_eq, operands_of_node? stores.disjunction, operands_of_node? stores.conjunction,
    operands_of_node? stores.first, operands_of_node? stores.second, Node.operands, Form.operands]

theorem firsts_postorder (stores : pool.StoresTwice x y both twice) :
    firsts (pool.postorder twice) = [x, y, both, twice] := by
  have bothNew : both ≠ x ∧ both ≠ y := by
    constructor <;> rintro rfl
    · simpa [stores.first] using stores.conjunction
    · simpa [stores.second] using stores.conjunction
  have twiceNew : twice ≠ x ∧ twice ≠ y ∧ twice ≠ both := by
    refine ⟨?_, ?_, ?_⟩ <;> rintro rfl
    · simpa [stores.first] using stores.disjunction
    · simpa [stores.second] using stores.disjunction
    · simpa [stores.conjunction] using stores.disjunction
  rw [stores.postorder_eq]
  simp [firsts, List.dedup_cons_of_mem, List.dedup_cons_of_notMem, stores.differ, bothNew, twiceNew]

/-- The variables stay. -/
theorem rebuild_variables (stores : pool.StoresTwice x y both twice) (step : ExprId → Build ExprId)
    (extension : pool.Extends after) :
    rebuild step x after = .ok x after ∧ rebuild step y after = .ok y after :=
  ⟨rebuild_var (extension stores.first), rebuild_var (extension stores.second)⟩

/-- The conjunction is rebuilt if its first variable is replaced. -/
theorem exists_rebuild_both (stores : pool.StoresTwice x y both twice) :
    ∃ same after, rebuild (replacing x y) both pool = .ok same after ∧
      ascend (replacing x y) both pool = .ok same after ∧ pool.Extends after ∧
      after.node? same = some ⟨.bool, .apply .and [y, y]⟩ := by
  have leaves := stores.rebuild_variables (replacing x y) (.refl pool)
  have xAscends : ascend (replacing x y) x pool = .ok y pool := by
    simpa using ascend_replacing leaves.1
  have yAscends : ascend (replacing x y) y pool = .ok y pool := by
    simpa using ascend_replacing leaves.2
  have applies : pool.Applies .and [y, y] .bool :=
    ⟨⟨[.bool, .bool], .cons ⟨_, stores.second⟩ (.cons ⟨_, stores.second⟩ .nil), .and (by simp) (by simp)⟩,
      by simp⟩
  obtain ⟨same, after, built, grows, sameStored⟩ := (apply_yields applies).exists_ok
  have rebuilt : rebuild (replacing x y) both pool = .ok same after :=
    rebuild_of_changed stores.conjunction (mapM_ascend_pair xAscends yAscends)
      (by simpa using stores.differ) built
  have other : same ≠ x := by
    rintro rfl
    simp [grows.extension stores.first] at sameStored
  refine ⟨same, after, rebuilt, ?_, grows.extension, sameStored⟩
  simpa [other] using ascend_replacing rebuilt

/-- The disjunction is rebuilt with the rebuilt conjunction, which the second operand
finds stored. -/
theorem exists_ascend_twice (stores : pool.StoresTwice x y both twice) (typed : pool.WellTyped) :
    ∃ same r after, ascend (replacing x y) twice pool = .ok r after ∧ pool.Extends after ∧
      after.node? same = some ⟨.bool, .apply .and [y, y]⟩ ∧
      after.node? r = some ⟨.bool, .apply .or [same, same]⟩ ∧
      List.Forall₂ (fun z given => rebuild (replacing x y) z after = .ok given after)
        [x, y, both, twice] [x, y, same, r] := by
  obtain ⟨same, middle, rebuilt, ascends, toMiddle, sameStored⟩ := stores.exists_rebuild_both
  have steady := steady_steps.1 x y
  obtain ⟨rebuildLasts, ascendLasts⟩ := ascend_lasts steady typed (has_iff.mpr ⟨_, stores.conjunction⟩)
  have applies : middle.Applies .or [same, same] .bool :=
    ⟨⟨[.bool, .bool], .cons ⟨_, sameStored⟩ (.cons ⟨_, sameStored⟩ .nil), .or (by simp) (by simp)⟩, by simp⟩
  obtain ⟨r, after, built, grows, rStored⟩ := (apply_yields applies).exists_ok
  have constructs : middle.Constructs after := (constructive_apply _ _ middle).of_ok built
  have extension := toMiddle.trans grows.extension
  have changed : same ≠ both := by
    rintro rfl
    simp [toMiddle stores.conjunction, stores.differ.symm] at sameStored
  have twiceRebuilt : rebuild (replacing x y) twice pool = .ok r after :=
    rebuild_of_changed stores.disjunction (mapM_ascend_pair ascends (ascendLasts ascends .refl))
      (by simpa using changed) built
  have twiceLasts := (ascend_lasts steady typed (has_iff.mpr ⟨_, stores.disjunction⟩)).1
  have leaves := stores.rebuild_variables (replacing x y) extension
  have other : r ≠ x := by
    rintro rfl
    simp [extension stores.first] at rStored
  refine ⟨same, r, after, ?_, extension, grows.extension sameStored, rStored, ?_⟩
  · simpa [other] using ascend_replacing twiceRebuilt
  · exact .cons leaves.1 (.cons leaves.2 (.cons (rebuildLasts rebuilt constructs)
      (.cons (twiceLasts twiceRebuilt .refl) .nil)))

end Pool.StoresTwice

theorem Workspace.exists_reachable_twice :
    ∃ (workspace : Workspace PassMemory) (x y both twice : ExprId), workspace.Reachable ∧
      workspace.pool.StoresTwice x y both twice := by
  obtain ⟨first, x, y, firstReachable, xStored, yStored⟩ :=
    exists_reachable_variables (by decide : "y" ≠ "x")
  obtain ⟨second, both, secondReachable, toSecond, bothStored⟩ :=
    firstReachable.exists_gate (.and (by simp) (by simp)) (by simp) ⟨_, xStored⟩ ⟨_, yStored⟩
  obtain ⟨workspace, twice, reachable, toThird, twiceStored⟩ :=
    secondReachable.exists_gate (.or (by simp) (by simp)) (by simp) ⟨_, bothStored⟩ ⟨_, bothStored⟩
  exact ⟨workspace, x, y, both, twice, reachable, toThird (toSecond xStored), toThird (toSecond yStored),
    toThird bothStored, twiceStored⟩

/-- A variable is replaced by another one in a conjunction that occurs twice. The
conjunction is rebuilt once. -/
theorem Workspace.bottomUp_eq_ascend_replacing :
    ∃ (workspace : Workspace PassMemory) (x y both twice same r : ExprId) (after : Pool), workspace.Used ∧
      workspace.pool.node? both = some ⟨.bool, .apply .and [x, y]⟩ ∧
      workspace.pool.node? twice = some ⟨.bool, .apply .or [both, both]⟩ ∧
      workspace.pool.postorder twice = [x, y, both, x, y, both, twice] ∧
      Build.bottomUp (replacing x y) twice workspace.pool = (.ok r, [x, y, same, r], after) ∧
      after.node? same = some ⟨.bool, .apply .and [y, y]⟩ ∧
      after.node? r = some ⟨.bool, .apply .or [same, same]⟩ := by
  obtain ⟨workspace, x, y, both, twice, reachable, stores⟩ := exists_reachable_twice
  have used := reachable.evolved.used
  obtain ⟨same, r, after, ascends, -, sameStored, rStored, rebuilt⟩ :=
    stores.exists_ascend_twice reachable.sound.typed
  have stored : workspace.pool.Has twice := Pool.has_iff.mpr ⟨_, stores.disjunction⟩
  obtain ⟨visits, walked, each⟩ :=
    (used.bottomUp_eq_ascend (steady_steps.1 x y) stored).1 r after ascends
  rw [stores.firsts_postorder] at each
  -- what is given to the step is what each part is rebuilt to
  obtain rfl : visits = [x, y, same, r] := by
    refine List.right_unique_forall₂' (fun z given other isGiven isOther => ?_) each rebuilt
    cases isGiven.symm.trans isOther
    rfl
  exact ⟨workspace, x, y, both, twice, same, r, after, used, stores.conjunction, stores.disjunction,
    stores.postorder_eq, walked, sameStored, rStored⟩

end Replacing

end Clausal
