import Mathlib
import Clausal.Proofs.HashConsing
import Clausal.Proofs.History
import Clausal.Proofs.Measure
import Clausal.Proofs.Variables

/-!
# The order of a traversal

The traversal of `Pool.descendants` keeps the expressions that it still has to look at
on a stack. An expression may lie there several times and counts as visited only when
it is taken off. `Pool.explore` is the recursion that such a stack stands for: it visits
an expression before its operands, goes through the operands from left to right and
skips what was visited.

Both list the expressions in the order in which they first occur in the trees of the
roots (`descendants_eq_firsts`). What the recursion skips has been listed with
everything that occurs in it, or is an expression that it is still at work on, and
these have larger numbers than what they consist of. The stack is empty after as many
turns as there are roots and operands of listed expressions (`visitWithin_eq`).
-/

namespace Clausal.Pool

variable {pool : Pool} {roots trail : List ExprId} {e x : ExprId}

section Unfolding

/-- The nodes of the tree of an expression, a node before its operands. Shared parts
are listed as often as they occur. -/
def preorder (pool : Pool) : ExprId → List ExprId :=
  pool.foldTree fun e parts => e :: parts.flatten

theorem preorder_eq (pool : Pool) (e : ExprId) :
    pool.preorder e = e :: (pool.operands e).flatMap pool.preorder := by
  unfold preorder
  rw [foldTree_eq, List.flatMap_def]

/-- The tree of an expression has what occurs in the expression. -/
theorem mem_preorder_iff : x ∈ pool.preorder e ↔ pool.Reaches e x := by
  induction index : e.index using Nat.strong_induction_on generalizing e with
  | _ size inductionHypothesis =>
  subst index
  rw [preorder_eq, List.mem_cons, List.mem_flatMap]
  constructor
  · rintro (rfl | ⟨operand, isOperand, inside⟩)
    · exact .refl
    · exact .head isOperand
        ((inductionHypothesis _ (index_lt_of_mem_operands isOperand) rfl).mp inside)
  · intro reaches
    rcases Relation.ReflTransGen.cases_head reaches with rfl | ⟨operand, isOperand, further⟩
    · exact .inl rfl
    · exact .inr ⟨operand, isOperand,
        (inductionHypothesis _ (index_lt_of_mem_operands isOperand) rfl).mpr further⟩

end Unfolding

section Exploring

/-- Visit an expression and then its operands from left to right, behind the
expressions that were visited. What was visited is skipped. -/
def explore (pool : Pool) (seen : List ExprId) (e : ExprId) : List ExprId :=
  if e ∈ seen then seen
  else (pool.operands e).attach.foldl (fun seen operand => pool.explore seen operand.1) (seen ++ [e])
termination_by e.index
decreasing_by
  exact index_lt_of_mem_operands operand.2

theorem explore_of_mem {seen : List ExprId} (known : e ∈ seen) : pool.explore seen e = seen := by
  rw [explore, if_pos known]

theorem explore_of_notMem {seen : List ExprId} (new : e ∉ seen) :
    pool.explore seen e = (pool.operands e).foldl pool.explore (seen ++ [e]) := by
  rw [explore, if_neg new, List.foldl_attach]

/-- The stack holds what the recursion has still to visit. -/
theorem toList_visit {visited : Std.HashSet ExprId} {order : Array ExprId} {pending : List ExprId}
    (visited_iff : ∀ e, visited.contains e ↔ e ∈ order) :
    (pool.visit visited order pending).toList = pending.foldl pool.explore order.toList := by
  fun_induction visit pool visited order pending with
  | case1 visited order => rfl
  | case2 visited order e rest known inductionHypothesis =>
    have listed : e ∈ order.toList := Array.mem_toList_iff.mpr ((visited_iff e).mp known)
    rw [inductionHypothesis visited_iff, List.foldl_cons, explore_of_mem listed]
  | case3 visited order e rest unknown inductionHypothesis =>
    have new : e ∉ order.toList := fun member =>
      unknown ((visited_iff e).mpr (Array.mem_toList_iff.mp member))
    rw [inductionHypothesis (contains_insert_iff visited_iff e), List.foldl_append, Array.toList_push,
      List.foldl_cons, explore_of_notMem new]

theorem descendants_eq_foldl_explore (pool : Pool) (roots : List ExprId) :
    pool.descendants roots = roots.foldl pool.explore [] :=
  toList_visit (by simp)

end Exploring

section Occurrences

/-- What occurs in the listed expressions with numbers below a bound is listed. -/
def CoversBelow (pool : Pool) (bound : Nat) (trail : List ExprId) : Prop :=
  ∀ e ∈ trail, e.index < bound → ∀ x, pool.Reaches e x → x ∈ trail

theorem CoversBelow.append {bound : Nat} (covers : pool.CoversBelow bound trail) (e : ExprId) :
    pool.CoversBelow bound (trail ++ pool.preorder e) := by
  intro other member below x reaches
  rw [List.mem_append] at member ⊢
  refine member.imp (fun inside => covers other inside below x reaches) fun inside => ?_
  rw [mem_preorder_iff] at inside ⊢
  exact inside.trans reaches

/-- An expression whose operands are still to be visited does not disturb what is
visited below it. -/
theorem CoversBelow.concat {bound : Nat} (covers : pool.CoversBelow bound trail)
    (below : e.index < bound) : pool.CoversBelow e.index (trail ++ [e]) := by
  intro other member smaller x reaches
  rcases List.mem_append.mp member with inside | same
  · exact List.mem_append_left _ (covers other inside (smaller.trans below) x reaches)
  · rw [List.mem_singleton.mp same] at smaller
    exact (lt_irrefl _ smaller).elim

theorem foldl_explore_firsts {bound : Nat} {items : List ExprId}
    (each : ∀ item ∈ items, ∀ trail, pool.CoversBelow bound trail →
      pool.explore (firsts trail) item = firsts (trail ++ pool.preorder item))
    (covers : pool.CoversBelow bound trail) :
    items.foldl pool.explore (firsts trail) = firsts (trail ++ items.flatMap pool.preorder) := by
  induction items generalizing trail with
  | nil => simp
  | cons item items inductionHypothesis =>
    rw [List.forall_mem_cons] at each
    rw [List.foldl_cons, each.1 trail covers, inductionHypothesis each.2 (covers.append item),
      List.flatMap_cons, List.append_assoc]

/-- What is visited behind a trail is what first occurs in the tree behind it. -/
theorem explore_firsts {bound : Nat} (covers : pool.CoversBelow bound trail)
    (below : e.index < bound) :
    pool.explore (firsts trail) e = firsts (trail ++ pool.preorder e) := by
  induction index : e.index using Nat.strong_induction_on generalizing e trail bound with
  | _ size inductionHypothesis =>
  subst index
  by_cases known : e ∈ trail
  · rw [explore_of_mem (mem_firsts.mpr known), firsts_append_of_forall_mem]
    exact fun x inside => covers e known below x (mem_preorder_iff.mp inside)
  · have tree : trail ++ pool.preorder e = trail ++ [e] ++ (pool.operands e).flatMap pool.preorder := by
      rw [preorder_eq, List.append_cons]
    rw [explore_of_notMem (mt mem_firsts.mp known), ← firsts_append_of_notMem known, tree]
    refine foldl_explore_firsts (fun operand isOperand trail covers => ?_) (covers.concat below)
    have smaller := index_lt_of_mem_operands isOperand
    exact inductionHypothesis _ smaller covers smaller rfl

/-- The traversal lists expressions in the order in which they first occur in the trees
of the roots. -/
theorem descendants_eq_firsts (pool : Pool) (roots : List ExprId) :
    pool.descendants roots = firsts (roots.flatMap pool.preorder) := by
  obtain ⟨bound, inside⟩ : ∃ bound, ∀ root ∈ roots, root.index < bound :=
    ⟨total ExprId.index roots + 1, fun root member => Nat.lt_succ_of_le (le_total_of_mem member)⟩
  have start : pool.CoversBelow bound [] := nofun
  rw [descendants_eq_foldl_explore]
  exact foldl_explore_firsts (fun root member _ covers => explore_firsts covers (inside root member)) start

end Occurrences

section Turns

/-- The traversal with a bound on the number of expressions that are taken off the
stack. -/
def visitWithin (pool : Pool) : Nat → Std.HashSet ExprId → Array ExprId → List ExprId →
    Option (Array ExprId)
  | _, _, order, [] => some order
  | 0, _, _, _ :: _ => none
  | bound + 1, visited, order, e :: rest =>
    if visited.contains e then pool.visitWithin bound visited order rest
    else pool.visitWithin bound (visited.insert e) (order.push e) (pool.operands e ++ rest)

/-- The number of operands of an expression. -/
def operandCount (pool : Pool) (e : ExprId) : Nat :=
  (pool.operands e).length

/-- A traversal under way comes to its end after a number of turns that is known when
the result is: every turn takes off what was on the stack or is an operand of what
becomes listed. -/
theorem exists_turns (pool : Pool) (visited : Std.HashSet ExprId) (order : Array ExprId)
    (pending : List ExprId) :
    ∃ turns, turns + total pool.operandCount order.toList =
        pending.length + total pool.operandCount (pool.visit visited order pending).toList ∧
      ∀ bound, pool.visitWithin bound visited order pending =
        if turns ≤ bound then some (pool.visit visited order pending) else none := by
  fun_induction visit pool visited order pending with
  | case1 visited order =>
    refine ⟨0, by simp, fun bound => ?_⟩
    rw [if_pos (Nat.zero_le bound)]
    cases bound <;> rfl
  | case2 visited order e rest known inductionHypothesis =>
    obtain ⟨turns, count, within⟩ := inductionHypothesis
    refine ⟨turns + 1, ?_, fun bound => ?_⟩
    · rw [List.length_cons]
      omega
    · cases bound with
      | zero => rfl
      | succ bound => simp only [visitWithin, known, if_true, within, Nat.succ_le_succ_iff]
  | case3 visited order e rest unknown inductionHypothesis =>
    obtain ⟨turns, count, within⟩ := inductionHypothesis
    refine ⟨turns + 1, ?_, fun bound => ?_⟩
    · rw [Array.toList_push, total_append, List.length_append, total_cons, total_nil] at count
      rw [List.length_cons]
      unfold operandCount at *
      omega
    · cases bound with
      | zero => rfl
      | succ bound => simp only [visitWithin, if_neg unknown, within, Nat.succ_le_succ_iff]

/-- The traversal takes as many expressions off its stack as there are roots and
operands of listed expressions. -/
theorem visitWithin_eq (pool : Pool) (roots : List ExprId) (bound : Nat) :
    pool.visitWithin bound ∅ #[] roots =
      if roots.length + total pool.operandCount (pool.descendants roots) ≤ bound then
        some (pool.descendants roots).toArray
      else none := by
  obtain ⟨turns, count, within⟩ := exists_turns pool ∅ #[] roots
  rw [total_nil, Nat.add_zero] at count
  rw [within, descendants, ← count, Array.toArray_toList]

end Turns

/-- An expression is stored as a variable. -/
def IsVar (pool : Pool) (e : ExprId) : Prop :=
  ∃ ty name, pool.node? e = some ⟨ty, .var name⟩

instance : DecidablePred pool.IsVar :=
  fun _ => decidable_of_iff _ isVariable_iff

theorem variablesOf_eq_filter (pool : Pool) (roots : List ExprId) :
    pool.variablesOf roots = (pool.descendants roots).filter (pool.IsVar ·) := by
  refine List.filter_congr fun x _ => ?_
  rw [Bool.eq_iff_iff, isVariable_iff, decide_eq_true_iff, IsVar]

/-- The traversal is the recursive depth-first one: it lists what is reachable from the
roots, each expression once and before its operands, in the order of first occurrence.
It comes to its end, and variables are listed in the same order. -/
theorem descendants_in_preorder (pool : Pool) (roots : List ExprId) :
    (∀ bound, pool.visitWithin bound ∅ #[] roots =
      if roots.length + total pool.operandCount (pool.descendants roots) ≤ bound then
        some (pool.descendants roots).toArray
      else none) ∧
    (pool.descendants roots).Nodup ∧
    (∀ e, e ∈ pool.descendants roots ↔ ∃ root ∈ roots, pool.Reaches root e) ∧
    pool.descendants roots = roots.foldl pool.explore [] ∧
    pool.descendants roots = firsts (roots.flatMap pool.preorder) ∧
    (pool.variablesOf roots).Nodup ∧
    (∀ x, x ∈ pool.variablesOf roots ↔ (∃ root ∈ roots, pool.Reaches root x) ∧ pool.IsVar x) ∧
    pool.variablesOf roots = (roots.foldl pool.explore []).filter (pool.IsVar ·) ∧
    pool.variablesOf roots = firsts ((roots.flatMap pool.preorder).filter (pool.IsVar ·)) := by
  refine ⟨visitWithin_eq pool roots, (descendants_traversed pool roots).nodup,
    fun _ => mem_descendants_iff, descendants_eq_foldl_explore pool roots, descendants_eq_firsts pool roots,
    nodup_variablesOf pool roots, fun x => ?membership, ?recursion, ?occurrences⟩
  case membership => rw [mem_variablesOf_iff, isVariable_iff, IsVar]
  case recursion => rw [variablesOf_eq_filter, descendants_eq_foldl_explore]
  case occurrences => rw [variablesOf_eq_filter, descendants_eq_firsts, firsts_filter]

/-- A variable occurs below a negation and beside it, and a root is given twice. -/
theorem descendants_in_preorder_repeated :
    ∃ (workspace : Workspace PassMemory) (x y denial either : ExprId), workspace.Reachable ∧
      workspace.pool.node? denial = some ⟨.bool, .apply .not [x]⟩ ∧
      workspace.pool.node? either = some ⟨.bool, .apply .or [denial, y, x]⟩ ∧
      workspace.pool.descendants [either] = [either, denial, x, y] ∧
      workspace.pool.variablesOf [either] = [x, y] ∧
      workspace.pool.descendants [y, either, y] = [y, either, denial, x] ∧
      workspace.pool.variablesOf [y, either, y] = [y, x] := by
  obtain ⟨before, x, y, _, denial, reachable, stores⟩ := Workspace.exists_reachable_disjunction
  obtain ⟨workspace, either, afterReachable, extension, eitherStored⟩ :=
    reachable.exists_apply (.or (by simp) (by simp)) (by simp)
      (.cons ⟨_, stores.denial⟩ (.cons ⟨_, stores.second⟩ (.cons ⟨_, stores.first⟩ .nil)))
  have xStored := extension stores.first
  have yStored := extension stores.second
  have denialStored := extension stores.denial
  have other : y ≠ x ∧ y ≠ denial ∧ y ≠ either := by
    refine ⟨?_, ?_, ?_⟩ <;> rintro rfl
    · simp [yStored] at xStored
    · simp [yStored] at denialStored
    · simp [yStored] at eitherStored
  have above : x ≠ denial ∧ x ≠ either ∧ denial ≠ either := by
    refine ⟨?_, ?_, ?_⟩ <;> rintro rfl
    · simp [xStored] at denialStored
    · simp [xStored] at eitherStored
    · simp [denialStored] at eitherStored
  have tree : workspace.pool.preorder either = [either, denial, x, y, x] ∧
      workspace.pool.preorder y = [y] := by
    simp [preorder_eq, operands_of_node? eitherStored, operands_of_node? denialStored,
      operands_of_node? xStored, operands_of_node? yStored, Node.operands, Form.operands]
  obtain ⟨-, -, -, -, once, -, -, -, variablesOnce⟩ := descendants_in_preorder workspace.pool [either]
  obtain ⟨-, -, -, -, often, -, -, -, variablesOften⟩ := descendants_in_preorder workspace.pool [y, either, y]
  refine ⟨workspace, x, y, denial, either, afterReachable, denialStored, eitherStored, ?_, ?_, ?_, ?_⟩
  · rw [once]
    simp [tree, firsts, List.dedup_cons_of_mem, List.dedup_cons_of_notMem, other, above]
  · rw [variablesOnce]
    simp [tree, firsts, List.dedup_cons_of_mem, List.dedup_cons_of_notMem, other, IsVar, xStored, yStored,
      denialStored, eitherStored]
  · rw [often]
    simp [tree, firsts, List.dedup_cons_of_mem, List.dedup_cons_of_notMem, other.1.symm, other.2.1.symm,
      other.2.2.symm, above]
  · rw [variablesOften]
    simp [tree, firsts, List.dedup_cons_of_mem, List.dedup_cons_of_notMem, other.1.symm, IsVar, xStored,
      yStored, denialStored, eitherStored]

end Clausal.Pool
