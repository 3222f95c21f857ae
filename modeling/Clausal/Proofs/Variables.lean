import Mathlib
import Clausal.Pool.Descendants
import Clausal.Proofs.Evaluation

/-!
# Reachable expressions

The traversal lists exactly the expressions that are reachable from its roots, each
once. Its variables are those that the values of the roots depend on.
-/

namespace Clausal.Pool

variable {pool : Pool} {roots : List ExprId} {e : ExprId}

/-- A traversal under way: what was visited is listed once, and the operands of
what was visited are visited or pending. -/
structure Traverses (pool : Pool) (visited : Std.HashSet ExprId) (order : Array ExprId)
    (pending : List ExprId) : Prop where
  visited_iff : ∀ e, visited.contains e ↔ e ∈ order
  nodup : order.toList.Nodup
  operands : ∀ e ∈ order, ∀ operand ∈ pool.operands e, operand ∈ order ∨ operand ∈ pending

/-- What a finished traversal lists. -/
structure Traversed (pool : Pool) (order : Array ExprId) (pending : List ExprId)
    (result : Array ExprId) : Prop where
  nodup : result.toList.Nodup
  visited : ∀ e ∈ order, e ∈ result
  waiting : ∀ e ∈ pending, e ∈ result
  reached : ∀ e ∈ result, e ∈ order ∨ ∃ root ∈ pending, pool.Reaches root e
  closed : ∀ e ∈ result, ∀ operand ∈ pool.operands e, operand ∈ result

/-- What is visited next is listed. -/
theorem contains_insert_iff {visited : Std.HashSet ExprId} {order : Array ExprId}
    (visited_iff : ∀ e, visited.contains e ↔ e ∈ order) (e other : ExprId) :
    (visited.insert e).contains other ↔ other ∈ order.push e := by
  rw [Std.HashSet.contains_insert, Array.mem_push, Bool.or_eq_true, visited_iff, beq_iff_eq, or_comm,
    eq_comm]

theorem visit_traversed {visited : Std.HashSet ExprId} {order : Array ExprId} {pending : List ExprId}
    (traverses : pool.Traverses visited order pending) :
    pool.Traversed order pending (pool.visit visited order pending) := by
  fun_induction visit pool visited order pending with
  | case1 visited order =>
    refine ⟨traverses.nodup, fun _ => id, nofun, fun _ => .inl, fun e member operand isOperand => ?_⟩
    exact (traverses.operands e member operand isOperand).resolve_right (List.not_mem_nil)
  | case2 visited order e rest known inductionHypothesis =>
    have listed := (traverses.visited_iff e).mp known
    have rest := inductionHypothesis ⟨traverses.visited_iff, traverses.nodup, ?_⟩
    · refine ⟨rest.nodup, rest.visited, ?_, ?_, rest.closed⟩
      · exact List.forall_mem_cons.mpr ⟨rest.visited e listed, rest.waiting⟩
      · intro other member
        refine (rest.reached other member).imp id ?_
        rintro ⟨root, rootMember, reaches⟩
        exact ⟨root, List.mem_cons_of_mem e rootMember, reaches⟩
    · intro other member operand isOperand
      rcases traverses.operands other member operand isOperand with inside | waiting
      · exact .inl inside
      · rcases List.mem_cons.mp waiting with rfl | waiting
        · exact .inl listed
        · exact .inr waiting
  | case3 visited order e rest unknown inductionHypothesis =>
    have rest := inductionHypothesis ⟨contains_insert_iff traverses.visited_iff e, ?_, ?_⟩
    · refine ⟨rest.nodup, fun other member => rest.visited other (Array.mem_push.mpr (.inl member)),
        ?_, ?_, rest.closed⟩
      · refine List.forall_mem_cons.mpr ⟨rest.visited e (Array.mem_push.mpr (.inr rfl)), ?_⟩
        exact fun other member => rest.waiting other (List.mem_append_right _ member)
      · intro other member
        rcases rest.reached other member with listed | ⟨root, rootMember, reaches⟩
        · rcases Array.mem_push.mp listed with inside | rfl
          · exact .inl inside
          · exact .inr ⟨other, List.mem_cons_self, .refl⟩
        · rcases List.mem_append.mp rootMember with isOperand | waiting
          · exact .inr ⟨e, List.mem_cons_self, .head isOperand reaches⟩
          · exact .inr ⟨root, List.mem_cons_of_mem e waiting, reaches⟩
    · rw [Array.toList_push, List.nodup_append]
      refine ⟨traverses.nodup, List.nodup_singleton e, ?_⟩
      intro left leftMember right rightMember same
      obtain rfl := List.mem_singleton.mp rightMember
      exact unknown ((traverses.visited_iff _).mpr (same ▸ Array.mem_toList_iff.mp leftMember))
    · intro other member operand isOperand
      rcases Array.mem_push.mp member with inside | rfl
      · rcases traverses.operands other inside operand isOperand with listed | waiting
        · exact .inl (Array.mem_push.mpr (.inl listed))
        · rcases List.mem_cons.mp waiting with rfl | waiting
          · exact .inl (Array.mem_push.mpr (.inr rfl))
          · exact .inr (List.mem_append_right _ waiting)
      · exact .inr (List.mem_append_left _ isOperand)

theorem descendants_traversed (pool : Pool) (roots : List ExprId) :
    pool.Traversed #[] roots (pool.visit ∅ #[] roots) :=
  visit_traversed ⟨by simp, by simp, by simp⟩

/-- The listed expressions are those that are reachable from a root. -/
theorem mem_descendants_iff : e ∈ pool.descendants roots ↔ ∃ root ∈ roots, pool.Reaches root e := by
  have traversed := descendants_traversed pool roots
  rw [descendants, Array.mem_toList_iff]
  constructor
  · exact fun member => (traversed.reached e member).resolve_left (by simp)
  · rintro ⟨root, rootMember, reaches⟩
    induction reaches with
    | refl => exact traversed.waiting root rootMember
    | tail _ isOperand inductionHypothesis => exact traversed.closed _ inductionHypothesis _ isOperand

theorem mem_variablesOf_iff :
    e ∈ pool.variablesOf roots ↔ (∃ root ∈ roots, pool.Reaches root e) ∧ pool.isVariable e := by
  rw [variablesOf, List.mem_filter, mem_descendants_iff]

/-- The variables of stored expressions stay the same when the pool grows. -/
theorem Extends.mem_variablesOf_iff {before after : Pool} (extension : before.Extends after)
    (stored : ∀ root ∈ roots, before.Has root) :
    e ∈ before.variablesOf roots ↔ (∃ root ∈ roots, after.Reaches root e) ∧ after.isVariable e := by
  rw [Pool.mem_variablesOf_iff]
  constructor
  · rintro ⟨⟨root, member, reaches⟩, isVariable⟩
    rw [← extension.isVariable_eq (reaches.has (stored root member))] at isVariable
    exact ⟨⟨root, member, (extension.reaches_iff (stored root member)).mpr reaches⟩, isVariable⟩
  · rintro ⟨⟨root, member, reaches⟩, isVariable⟩
    rw [extension.reaches_iff (stored root member)] at reaches
    rw [extension.isVariable_eq (reaches.has (stored root member))] at isVariable
    exact ⟨⟨root, member, reaches⟩, isVariable⟩

theorem nodup_variablesOf (pool : Pool) (roots : List ExprId) : (pool.variablesOf roots).Nodup :=
  (descendants_traversed pool roots).nodup.filter _

end Clausal.Pool
