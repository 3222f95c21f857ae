import Mathlib
import Clausal.Pool.Bracket
import Clausal.Proofs.Traversals

/-!
# Shared expressions

An expression is shared below a root if it is an operand at two places, where a place is
a node with a position among its operands. `Pool.occurrences` counts the places
(`isShared_iff`): it goes through the operands of every node once, whatever the number of
paths that lead to the node.

A traversal that skips what it has seen comes to an expression a second time only if the
expression is shared (`Underway.shared`). Every visit is owed to the root or to an operand
of what was seen, so what is visited and will be visited again is owed two visits. The
root itself is owed one, since its number is too large for an operand.
-/

namespace Clausal.Pool

variable {pool : Pool} {root e x : ExprId} {seen rest items : List ExprId}

section Occurrences

/-- Whether an expression is an operand at two places below `root`. -/
def Shared (pool : Pool) (root x : ExprId) : Prop :=
  {place : ExprId × Nat |
    pool.Reaches root place.1 ∧ (pool.operands place.1)[place.2]? = some x}.Nontrivial

/-- The places below `root` at which an expression is an operand. -/
def operandPlaces (pool : Pool) (root x : ExprId) : List (ExprId × Nat) :=
  (pool.descendants [root]).flatMap fun parent =>
    ((pool.operands parent).idxsOf x).map (Prod.mk parent)

theorem mem_operandPlaces_iff {place : ExprId × Nat} :
    place ∈ pool.operandPlaces root x ↔
      pool.Reaches root place.1 ∧ (pool.operands place.1)[place.2]? = some x := by
  obtain ⟨parent, position⟩ := place
  simp [operandPlaces, mem_descendants_iff, List.getElem?_eq_some_iff]

theorem nodup_operandPlaces (pool : Pool) (root x : ExprId) : (pool.operandPlaces root x).Nodup := by
  refine List.nodup_flatMap.mpr ⟨fun parent _ => ?_, ?_⟩
  · exact List.nodup_idxsOf.map (Prod.mk_right_injective parent)
  · refine (descendants_traversed pool [root]).nodup.imp fun {left right} differ => ?_
    intro place inLeft inRight
    obtain ⟨_, -, rfl⟩ := List.mem_map.mp inLeft
    obtain ⟨_, -, same⟩ := List.mem_map.mp inRight
    exact differ (congrArg Prod.fst same).symm

theorem length_operandPlaces (pool : Pool) (root x : ExprId) :
    (pool.operandPlaces root x).length = ((pool.descendants [root]).flatMap pool.operands).count x := by
  rw [operandPlaces, List.length_flatMap, List.count_flatMap]
  simp [Function.comp_def]

/-- Going through operands adds to each count how often the expression is among them. -/
theorem getD_foldl_insert (counts : Std.HashMap ExprId Nat) (operands : List ExprId) :
    (operands.foldl (fun counts operand => counts.insert operand (counts.getD operand 0 + 1))
      counts).getD x 0 = counts.getD x 0 + operands.count x := by
  induction operands generalizing counts with
  | nil => rfl
  | cons operand operands inductionHypothesis =>
    rw [List.foldl_cons, inductionHypothesis, Std.HashMap.getD_insert, List.count_cons]
    by_cases same : operand = x
    · subst same
      simp only [BEq.rfl, if_true]
      omega
    · simp [same]

theorem getD_occurrences (pool : Pool) (root x : ExprId) :
    (pool.occurrences root).getD x 0 = ((pool.descendants [root]).flatMap pool.operands).count x := by
  rw [occurrences, ← List.foldl_flatMap, getD_foldl_insert, Std.HashMap.getD_empty, Nat.zero_add]

/-- Whether an expression is counted more than once. -/
def isShared (pool : Pool) (root x : ExprId) : Bool :=
  1 < (pool.occurrences root).getD x 0

theorem isShared_iff : pool.isShared root x ↔ pool.Shared root x := by
  have places : ((pool.operandPlaces root x).toFinset : Set (ExprId × Nat)) =
      {place | pool.Reaches root place.1 ∧ (pool.operands place.1)[place.2]? = some x} := by
    ext place
    rw [List.coe_toFinset]
    exact mem_operandPlaces_iff
  rw [isShared, decide_eq_true_iff, Shared, ← places, getD_occurrences, ← length_operandPlaces,
    ← List.toFinset_card_of_nodup (nodup_operandPlaces pool root x)]
  exact Finset.one_lt_card_iff_nontrivial

/-- The root is no operand of what occurs in it. -/
theorem root_notMem_operands (reaches : pool.Reaches root e) : root ∉ pool.operands e :=
  fun isOperand => (index_lt_of_mem_operands isOperand).not_ge reaches.index_le

theorem not_shared_root (pool : Pool) (root : ExprId) : ¬pool.Shared root root := by
  rintro ⟨place, ⟨reaches, isOperand⟩, -⟩
  exact root_notMem_operands reaches (List.mem_of_getElem? isOperand)

end Occurrences

section Underway

/-- What a traversal from `root` that has seen some expressions was ever to visit: the
root and the operands of what it has seen. -/
def committed (pool : Pool) (root : ExprId) (seen : List ExprId) : List ExprId :=
  root :: seen.flatMap pool.operands

theorem count_committed_concat (pool : Pool) (root : ExprId) (seen : List ExprId) (e x : ExprId) :
    (pool.committed root (seen ++ [e])).count x =
      (pool.committed root seen).count x + (pool.operands e).count x := by
  simp only [committed, List.flatMap_append, List.flatMap_singleton, ← List.cons_append, List.count_append]

/-- A traversal from `root` has seen some expressions and has others before it. What is
before it is among what it was to visit, and each expression that it has seen has used up
one of its visits. -/
structure Underway (pool : Pool) (root : ExprId) (seen pending : List ExprId) : Prop where
  nodup : seen.Nodup
  reached : ∀ x ∈ seen, pool.Reaches root x
  waiting : ∀ x ∈ pending, pool.Reaches root x
  owed : ∀ x, pending.count x ≤ (pool.committed root seen).count x
  visited : ∀ x ∈ seen, pending.count x < (pool.committed root seen).count x

theorem underway_start (pool : Pool) (root : ExprId) : pool.Underway root [] [root] := by
  refine ⟨List.nodup_nil, by simp, ?_, by simp [committed], by simp⟩
  intro x member
  rw [List.mem_singleton.mp member]
  exact .refl

theorem Underway.skip (underway : pool.Underway root seen (e :: rest)) :
    pool.Underway root seen rest := by
  have fewer : ∀ x, rest.count x ≤ (e :: rest).count x := fun x => List.count_le_count_cons
  exact ⟨underway.nodup, underway.reached, (List.forall_mem_cons.mp underway.waiting).2,
    fun x => (fewer x).trans (underway.owed x),
    fun x member => (fewer x).trans_lt (underway.visited x member)⟩

/-- Visiting a new expression puts its operands before the traversal. -/
theorem Underway.enter (underway : pool.Underway root seen (e :: rest)) (new : e ∉ seen) :
    pool.Underway root (seen ++ [e]) (pool.operands e ++ rest) := by
  obtain ⟨reaches, restReached⟩ := List.forall_mem_cons.mp underway.waiting
  have fewer : ∀ x, rest.count x ≤ (e :: rest).count x := fun x => List.count_le_count_cons
  constructor
  case nodup => exact List.concat_eq_append ▸ underway.nodup.concat new
  case reached => exact List.forall_mem_append.mpr ⟨underway.reached, by simpa using reaches⟩
  case waiting =>
    exact List.forall_mem_append.mpr ⟨fun operand isOperand => reaches.tail isOperand, restReached⟩
  case owed =>
    intro x
    have owed := underway.owed x
    have := fewer x
    rw [List.count_append, count_committed_concat]
    omega
  case visited =>
    intro x member
    rw [List.count_append, count_committed_concat]
    rcases List.mem_append.mp member with old | same
    · have visited := underway.visited x old
      have := fewer x
      omega
    · have owed := underway.owed x
      rw [List.mem_singleton.mp same, List.count_cons_self] at *
      omega

theorem Underway.foldl_explore
    (each : ∀ item ∈ items, ∀ seen rest, pool.Underway root seen (item :: rest) →
      pool.Underway root (pool.explore seen item) rest)
    (underway : pool.Underway root seen (items ++ rest)) :
    pool.Underway root (items.foldl pool.explore seen) rest := by
  induction items generalizing seen with
  | nil => exact underway
  | cons item items inductionHypothesis =>
    rw [List.forall_mem_cons] at each
    exact inductionHypothesis each.2 (each.1 _ _ underway)

/-- A visit with all that follows from it leaves what is behind it before the traversal. -/
theorem Underway.explore (underway : pool.Underway root seen (e :: rest)) :
    pool.Underway root (pool.explore seen e) rest := by
  induction index : e.index using Nat.strong_induction_on generalizing e seen rest with
  | _ size inductionHypothesis =>
  subst index
  by_cases known : e ∈ seen
  · rw [explore_of_mem known]
    exact underway.skip
  · rw [explore_of_notMem known]
    refine (underway.enter known).foldl_explore fun operand isOperand _ _ next => ?_
    exact inductionHypothesis _ (index_lt_of_mem_operands isOperand) next rfl

/-- What was seen has no more places than there are. -/
theorem Underway.count_operands_le (underway : pool.Underway root seen rest) (x : ExprId) :
    (seen.flatMap pool.operands).count x ≤ (pool.occurrences root).getD x 0 := by
  obtain ⟨arranged, sameItems, inside⟩ : seen.Subperm (pool.descendants [root]) :=
    underway.nodup.subperm fun e member =>
      mem_descendants_iff.mpr ⟨root, List.mem_singleton_self root, underway.reached e member⟩
  rw [getD_occurrences, ← (sameItems.flatMap_right pool.operands).count_eq]
  exact (inside.flatMap pool.operands).count_le x

/-- What is visited again is shared. -/
theorem Underway.shared (underway : pool.Underway root seen (e :: rest)) (known : e ∈ seen) :
    pool.Shared root e := by
  have visited := underway.visited e known
  have notRoot : root ≠ e := by
    rintro rfl
    rw [committed, List.count_cons_self, List.count_cons_self] at visited
    have isOperand : root ∈ seen.flatMap pool.operands := List.count_pos_iff.mp (by omega)
    obtain ⟨parent, isSeen, isOperand⟩ := List.mem_flatMap.mp isOperand
    exact root_notMem_operands (underway.reached parent isSeen) isOperand
  have places := underway.count_operands_le e
  rw [committed, List.count_cons_of_ne notRoot, List.count_cons_self] at visited
  exact isShared_iff.mp (decide_eq_true (by omega))

end Underway

end Clausal.Pool
