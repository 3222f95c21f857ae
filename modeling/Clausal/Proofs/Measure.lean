import Mathlib
import Clausal.Pool.Measure
import Clausal.Proofs.Evaluation

/-!
# Weight and rank

The weight and the rank of an expression by its top node. They do not change
when the pool grows.
-/

namespace Clausal

/-- A largest item is bounded exactly when every item is. -/
theorem foldl_max_le_iff {items : List Nat} {start bound : Nat} :
    items.foldl max start ≤ bound ↔ start ≤ bound ∧ ∀ item ∈ items, item ≤ bound := by
  induction items generalizing start with
  | nil => simp
  | cons item items inductionHypothesis =>
    simp [inductionHypothesis, and_assoc]

theorem total_congr {α : Type} {size other : α → Nat} {items : List α}
    (same : ∀ item ∈ items, size item = other item) : total size items = total other items := by
  induction items with
  | nil => rfl
  | cons item items inductionHypothesis =>
    rw [total_cons, total_cons, same item List.mem_cons_self,
      inductionHypothesis fun next member => same next (List.mem_cons_of_mem item member)]

theorem total_eq_of_perm {α : Type} {size : α → Nat} {items others : List α}
    (perm : items.Perm others) :
    total size items = total size others := by
  induction perm with
  | nil => rfl
  | cons item _ inductionHypothesis => rw [total_cons, total_cons, inductionHypothesis]
  | swap first second rest =>
    simp only [total_cons]
    omega
  | trans _ _ first second => exact first.trans second

theorem total_le_of_sublist {α : Type} {size : α → Nat} {items others : List α}
    (sublist : items.Sublist others) : total size items ≤ total size others := by
  induction sublist with
  | slnil => exact le_rfl
  | cons item _ inductionHypothesis => exact inductionHypothesis.trans (Nat.le_add_left _ _)
  | cons_cons item _ inductionHypothesis => exact Nat.add_le_add_left inductionHypothesis _

theorem total_le_of_subset {α : Type} {size : α → Nat} {items others : List α} (nodup : items.Nodup)
    (inside : items ⊆ others) : total size items ≤ total size others := by
  obtain ⟨same, perm, sublist⟩ := nodup.subperm inside
  rw [← total_eq_of_perm perm]
  exact total_le_of_sublist sublist

/-- An item is counted in a total. -/
theorem le_total_of_mem {α : Type} {size : α → Nat} {items : List α} {item : α}
    (member : item ∈ items) : size item ≤ total size items := by
  induction items with
  | nil => cases member
  | cons first items inductionHypothesis =>
    rw [total_cons]
    rcases List.mem_cons.mp member with rfl | member
    · omega
    · have := inductionHypothesis member
      omega

theorem total_le_total {α β : Type} {size : α → Nat} {other : β → Nat} {items : List α}
    {others : List β} (each : List.Forall₂ (fun item result => other result ≤ size item) items others) :
    total other others ≤ total size items := by
  induction each with
  | nil => exact le_rfl
  | cons first _ inductionHypothesis =>
    rw [total_cons, total_cons]
    exact Nat.add_le_add first inductionHypothesis

namespace Pool

variable {pool before after : Pool} {e : ExprId} {ty : Ty} {op : Op} {operands : List ExprId}

theorem op?_of_apply (stored : pool.node? e = some ⟨ty, .apply op operands⟩) :
    pool.op? e = some op := by
  simp [op?, stored, Node.op?]

/-- An expression is an application of its top operator to its operands. -/
theorem node?_of_op? (found : pool.op? e = some op) :
    ∃ ty, pool.node? e = some ⟨ty, .apply op (pool.operands e)⟩ := by
  unfold op? at found
  obtain ⟨⟨ty, form⟩, stored, isOp⟩ := Option.bind_eq_some_iff.mp found
  cases form with
  | var name | const value => simp [Node.op?] at isOp
  | apply other operands =>
    cases isOp
    exact ⟨ty, by rw [operands_of_node? stored, stored]; rfl⟩

theorem negated?_eq_some_iff {operand : ExprId} :
    pool.negated? e = some operand ↔
      ∃ ty rest, pool.node? e = some ⟨ty, .apply .not (operand :: rest)⟩ := by
  unfold negated?
  split
  · rename_i ty found rest stored
    simp [stored]
  · rename_i other
    constructor
    · intro found
      cases found
    · rintro ⟨ty, rest, stored⟩
      exact (other ty operand rest stored).elim

/-- A leaf has no operands. -/
theorem operands_of_op?_eq_none (leaf : pool.op? e = none) : pool.operands e = [] := by
  unfold Pool.operands
  cases found : pool.node? e with
  | none => rfl
  | some node =>
    obtain ⟨ty, form⟩ := node
    cases form with
    | var name | const value => rfl
    | apply op operands => simp [op?_of_apply found] at leaf

/-- An expression with operands is an application to them. -/
theorem node?_of_mem_operands {operand : ExprId} (member : operand ∈ pool.operands e) :
    ∃ ty op, pool.node? e = some ⟨ty, .apply op (pool.operands e)⟩ := by
  cases found : pool.op? e with
  | none => simp [operands_of_op?_eq_none found] at member
  | some op =>
    obtain ⟨ty, stored⟩ := node?_of_op? found
    exact ⟨ty, op, stored⟩

theorem has_operand {operand : ExprId} (member : operand ∈ pool.operands e) : pool.Has operand := by
  obtain ⟨ty, op, stored⟩ := node?_of_mem_operands member
  exact has_of_mem_operands stored member

section Weight

theorem weight_eq_one {node : Node} (stored : pool.node? e = some node) (leaf : node.op? = none) :
    pool.weight e = 1 := by
  unfold weight
  rw [fold_eq]
  simp [weightFrom, op?, stored, leaf]

theorem weight_apply (stored : pool.node? e = some ⟨ty, .apply op operands⟩) :
    pool.weight e = op.weightCost + total pool.weight operands := by
  have unfolded : pool.weight e = pool.weightFrom e ((pool.operands e).map pool.weight) :=
    fold_eq pool pool.weightFrom e
  rw [unfolded, operands_of_node? stored]
  simp only [weightFrom, op?_of_apply stored, total_map, id, Node.operands_apply]

/-- The operands of an expression are lighter. -/
theorem weight_lt_of_mem_operands {operand : ExprId} (member : operand ∈ pool.operands e) :
    pool.weight operand < pool.weight e := by
  obtain ⟨ty, op, stored⟩ := node?_of_mem_operands member
  have counted : pool.weight operand ≤ total pool.weight (pool.operands e) := le_total_of_mem member
  have cost : 0 < op.weightCost := by cases op <;> simp [Op.weightCost]
  rw [weight_apply stored]
  omega

theorem weight_pos (pool : Pool) (e : ExprId) : 0 < pool.weight e := by
  unfold weight
  rw [fold_eq]
  unfold weightFrom
  split
  · rename_i op found
    cases op <;> simp only [Op.weightCost] <;> omega
  · exact Nat.one_pos

/-- The weight of a stored expression does not change when the pool grows. -/
theorem Extends.weight_eq (extension : before.Extends after) (stored : before.Has e) :
    after.weight e = before.weight e := by
  induction stored using Has.induction with
  | step e node found inductionHypothesis =>
    obtain ⟨ty, form⟩ := node
    cases form with
    | var name => rw [weight_eq_one found rfl, weight_eq_one (extension found) rfl]
    | const value => rw [weight_eq_one found rfl, weight_eq_one (extension found) rfl]
    | apply op operands =>
      rw [weight_apply found, weight_apply (extension found)]
      exact congrArg _ (total_congr inductionHypothesis)

end Weight

section Rank

/-- The largest rank of some expressions. -/
def peak (pool : Pool) (operands : List ExprId) : Nat :=
  (operands.map pool.rank).foldl max 0

theorem peak_le_iff {bound : Nat} :
    pool.peak operands ≤ bound ↔ ∀ operand ∈ operands, pool.rank operand ≤ bound := by
  simp [peak, foldl_max_le_iff]

theorem le_peak {operand : ExprId} (member : operand ∈ operands) :
    pool.rank operand ≤ pool.peak operands :=
  peak_le_iff.mp le_rfl operand member

theorem rank_eq_one {node : Node} (stored : pool.node? e = some node) (leaf : node.op? = none) :
    pool.rank e = 1 := by
  unfold rank
  rw [fold_eq]
  simp [rankFrom, stored, leaf]

theorem rank_apply (stored : pool.node? e = some ⟨ty, .apply op operands⟩) :
    pool.rank e = op.rankCost (pool.decidingTy ⟨ty, .apply op operands⟩) + pool.peak operands := by
  have unfolded : pool.rank e = pool.rankFrom e ((pool.operands e).map pool.rank) :=
    fold_eq pool pool.rankFrom e
  rw [unfolded, operands_of_node? stored]
  simp [rankFrom, stored, Node.op?, peak]

theorem decidingTy_of_ne_eq (notEq : op ≠ .eq) :
    pool.decidingTy ⟨ty, .apply op operands⟩ = ty := by
  unfold decidingTy
  split
  · rename_i form
    cases form
    exact absurd rfl notEq
  · rfl

theorem decidingTy_eq {a : ExprId} {operandTy : Ty} (hasTy : pool.HasTy a operandTy) :
    pool.decidingTy ⟨ty, .apply .eq (a :: operands)⟩ = operandTy := by
  obtain ⟨form, stored⟩ := hasTy
  simp [decidingTy, stored]

theorem rankCost_pos (op : Op) (ty : Ty) : 0 < op.rankCost ty := by
  cases op <;> simp only [Op.rankCost] <;> try omega
  · split <;> omega
  · cases ty <;> simp only [Ty.equalityRank] <;> omega

theorem rank_lt_of_mem {operand : ExprId} (stored : pool.node? e = some ⟨ty, .apply op operands⟩)
    (member : operand ∈ operands) : pool.rank operand < pool.rank e := by
  have cost := rankCost_pos op (pool.decidingTy ⟨ty, .apply op operands⟩)
  have below : pool.rank operand ≤ pool.peak operands := le_peak member
  rw [rank_apply stored]
  omega

/-- The operands of an expression have smaller ranks. -/
theorem rank_lt_of_mem_operands {operand : ExprId} (member : operand ∈ pool.operands e) :
    pool.rank operand < pool.rank e := by
  obtain ⟨ty, op, stored⟩ := node?_of_mem_operands member
  exact rank_lt_of_mem stored member

theorem rank_pos (stored : pool.Has e) : 0 < pool.rank e := by
  obtain ⟨⟨ty, form⟩, found⟩ := has_iff.mp stored
  cases form with
  | var name | const value => rw [rank_eq_one found rfl]; exact Nat.one_pos
  | apply op operands =>
    rw [rank_apply found]
    exact Nat.add_pos_left (rankCost_pos op _) _

theorem Extends.decidingTy_eq (extension : before.Extends after)
    (stored : before.node? e = some ⟨ty, .apply op operands⟩) :
    after.decidingTy ⟨ty, .apply op operands⟩ = before.decidingTy ⟨ty, .apply op operands⟩ := by
  by_cases isEq : op = .eq
  · subst isEq
    cases operands with
    | nil => rfl
    | cons a rest =>
      simp only [decidingTy, extension.node?_eq (has_of_mem_operands stored List.mem_cons_self)]
  · rw [decidingTy_of_ne_eq isEq, decidingTy_of_ne_eq isEq]

/-- The rank of a stored expression does not change when the pool grows. -/
theorem Extends.rank_eq (extension : before.Extends after) (stored : before.Has e) :
    after.rank e = before.rank e := by
  induction stored using Has.induction with
  | step e node found inductionHypothesis =>
    obtain ⟨ty, form⟩ := node
    cases form with
    | var name => rw [rank_eq_one found rfl, rank_eq_one (extension found) rfl]
    | const value => rw [rank_eq_one found rfl, rank_eq_one (extension found) rfl]
    | apply op operands =>
      rw [rank_apply found, rank_apply (extension found), extension.decidingTy_eq found]
      have same : operands.map after.rank = operands.map before.rank :=
        List.map_congr_left inductionHypothesis
      rw [peak, peak, same]

end Rank

end Pool

end Clausal
