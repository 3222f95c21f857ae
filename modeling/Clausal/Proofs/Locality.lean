import Mathlib
import Clausal.Proofs.JunctionRules

/-!
# Rules look at stored expressions only

What simplification proposes for an operator on stored operands depends on the
nodes of expressions that occur in the operands, so it is the same in every later
pool. An application that no rule simplifies stays one.
-/

namespace Clausal

namespace Pool

variable {before after : Pool} {e : ExprId} (extension : before.Extends after)
  (stored : before.Has e)
include extension stored

theorem Extends.op?_eq : after.op? e = before.op? e := by
  simp only [op?, extension.node?_eq stored]

theorem Extends.constant?_eq : after.constant? e = before.constant? e := by
  simp only [constant?, extension.node?_eq stored]

theorem Extends.truth?_eq : after.truth? e = before.truth? e := by
  simp only [truth?, extension.node?_eq stored]

theorem Extends.negated?_eq : after.negated? e = before.negated? e := by
  simp only [negated?, extension.node?_eq stored]

end Pool

namespace Rules

variable {pool before after : Pool} {op : Op} {a b c e : ExprId} {operands : List ExprId}

/-- What an operand contributes to a junction is stored. -/
theorem has_of_mem_unnest {parts : List ExprId} (stored : pool.Has e)
    (found : unnest pool op e = some parts) : ∀ part ∈ parts, pool.Has part := by
  induction stored using Pool.Has.induction generalizing parts with
  | step e node nodeFound inductionHypothesis =>
    rw [unnest_eq] at found
    split at found
    · split_ifs at found
      cases found
      simp
    · split_ifs at found
      · obtain ⟨lists, unnested, rfl⟩ := Option.map_eq_some_iff.mp found
        intro part member
        obtain ⟨list, listMember, partMember⟩ := List.mem_flatten.mp member
        obtain ⟨operand, operandMember, contributed⟩ :=
          exists_of_forall₂_of_mem (mapM_eq_some_iff.mp unnested).flip listMember
        rw [Pool.operands_of_node? nodeFound] at operandMember
        exact inductionHypothesis operand operandMember contributed part partMember
      · cases found
        simpa using Pool.has_iff.mpr ⟨node, nodeFound⟩

section Extension

variable (extension : before.Extends after)
include extension

section Operand

variable (stored : before.Has a)
include stored

theorem isBoolean_eq : isBoolean after a = isBoolean before a := by
  simp only [isBoolean, extension.node?_eq stored]

theorem width?_eq : width? after a = width? before a := by
  simp only [width?, extension.node?_eq stored]

theorem isNumber_eq {number : Nat} : isNumber after a number = isNumber before a number := by
  simp only [isNumber, extension.constant?_eq stored]

theorem unnest_eq_of_extends : unnest after op a = unnest before op a := by
  induction stored using Pool.Has.induction with
  | step e node found inductionHypothesis =>
    have stored : before.Has e := Pool.has_iff.mpr ⟨node, found⟩
    have each : (before.operands e).mapM (unnest after op) = (before.operands e).mapM (unnest before op) :=
      mapM_congr fun operand member =>
        inductionHypothesis operand (Pool.operands_of_node? found ▸ member)
    rw [unnest_eq, unnest_eq, extension.truth?_eq stored, extension.op?_eq stored,
      extension.operands_eq stored, each]

theorem simplifySelection_eq {assembles : Op} {index : Nat} :
    simplifySelection after assembles index a = simplifySelection before assembles index a := by
  simp only [simplifySelection, extension.op?_eq stored, extension.operands_eq stored]

variable (otherStored : before.Has b)
include otherStored

theorem opposed_eq : opposed after a b = opposed before a b := by
  simp only [opposed, extension.negated?_eq stored, extension.negated?_eq otherStored]

theorem simplifyXor_eq : simplifyXor after a b = simplifyXor before a b := by
  simp only [simplifyXor, extension.truth?_eq stored, extension.truth?_eq otherStored,
    opposed_eq extension stored otherStored, extension.negated?_eq stored,
    extension.negated?_eq otherStored]

theorem simplifyImplies_eq : simplifyImplies after a b = simplifyImplies before a b := by
  simp only [simplifyImplies, extension.truth?_eq stored, extension.truth?_eq otherStored]

theorem simplifyEq_eq : simplifyEq after a b = simplifyEq before a b := by
  simp only [simplifyEq, isBoolean_eq extension stored, extension.truth?_eq stored,
    extension.truth?_eq otherStored, opposed_eq extension stored otherStored]

theorem simplifyAdd_eq {width : Nat} : simplifyAdd after width a b = simplifyAdd before width a b := by
  simp only [simplifyAdd, isNumber_eq extension stored, isNumber_eq extension otherStored,
    width?_eq extension stored, width?_eq extension otherStored]

theorem simplifyMul_eq {width : Nat} : simplifyMul after width a b = simplifyMul before width a b := by
  simp only [simplifyMul, simplifyMulBy, isNumber_eq extension stored,
    isNumber_eq extension otherStored, width?_eq extension stored, width?_eq extension otherStored]

theorem simplifyIte_eq (lastStored : before.Has c) :
    simplifyIte after a b c = simplifyIte before a b c := by
  simp only [simplifyIte, simplifyBoolIte, extension.truth?_eq stored,
    extension.truth?_eq otherStored, extension.truth?_eq lastStored, extension.negated?_eq stored,
    isBoolean_eq extension otherStored]

end Operand

variable (stored : ∀ operand ∈ operands, before.Has operand)
include stored

theorem complementary_eq : complementary after operands = complementary before operands := by
  unfold complementary
  rw [Bool.eq_iff_iff, List.any_eq_true, List.any_eq_true]
  refine exists_congr fun e => and_congr_right fun member => ?_
  rw [extension.negated?_eq (stored e member)]

theorem simplifyJunction_eq : simplifyJunction after op operands = simplifyJunction before op operands := by
  have each : operands.mapM (unnest after op) = operands.mapM (unnest before op) :=
    mapM_congr fun operand member => unnest_eq_of_extends extension (stored operand member)
  unfold simplifyJunction
  rw [each]
  cases found : operands.mapM (unnest before op) with
  | none => rfl
  | some parts =>
    have keptStored : ∀ part ∈ distinct parts.flatten, before.Has part := by
      intro part member
      obtain ⟨list, listMember, partMember⟩ := List.mem_flatten.mp (mem_distinct.mp member)
      obtain ⟨operand, operandMember, contributed⟩ :=
        exists_of_forall₂_of_mem (mapM_eq_some_iff.mp found).flip listMember
      exact has_of_mem_unnest (stored operand operandMember) contributed part partMember
    simp only [complementary_eq extension keptStored]

theorem simplifyClause_eq : simplifyClause after operands = simplifyClause before operands := by
  have keptStored : ∀ part ∈ distinct operands, before.Has part :=
    fun part member => stored part (mem_distinct.mp member)
  simp only [simplifyClause, complementary_eq extension keptStored]

theorem areBitsOf_eq {source : ExprId} {position : Nat} :
    areBitsOf after source position operands = areBitsOf before source position operands := by
  induction operands generalizing position with
  | nil => rfl
  | cons e operands inductionHypothesis =>
    obtain ⟨first, rest⟩ := List.forall_mem_cons.mp stored
    simp only [areBitsOf, extension.op?_eq first, extension.operands_eq first,
      inductionHypothesis rest]

theorem simplifyBits_eq : simplifyBits after operands = simplifyBits before operands := by
  cases operands with
  | nil => rfl
  | cons first rest =>
    have firstStored := stored first List.mem_cons_self
    simp only [simplifyBits, entry, List.getElem?_cons_zero, bind, Except.bind,
      extension.op?_eq firstStored, extension.operands_eq firstStored, areBitsOf_eq extension stored]
    cases found : (before.operands first)[0]? with
    | none => rfl
    | some source =>
      have sourceStored := Pool.has_operand (List.mem_of_getElem? found)
      simp only [width?_eq extension sourceStored]

theorem fold_eq {values : List Value} :
    fold after op operands values = fold before op operands values := by
  have hasTy : ∀ operand ∈ operands, ∃ ty, before.HasTy operand ty := by
    intro operand member
    obtain ⟨⟨ty, form⟩, found⟩ := Pool.has_iff.mp (stored operand member)
    exact ⟨ty, form, found⟩
  obtain ⟨types, each⟩ := exists_forall₂ hasTy
  have laterEach : List.Forall₂ after.HasTy operands types := each.imp fun _ _ => extension.hasTy
  simp only [fold, Pool.tys_eq_ok_iff.mpr each, Pool.tys_eq_ok_iff.mpr laterEach]

/-- What is proposed for an operator on stored operands does not change when the
pool grows. -/
theorem simplification_eq : simplification after op operands = simplification before op operands := by
  have constants : operands.mapM after.constant? = operands.mapM before.constant? :=
    mapM_congr fun operand member => extension.constant?_eq (stored operand member)
  unfold simplification
  rw [constants]
  cases operands.mapM before.constant? with
  | some values => simp only [fold_eq extension stored]
  | none =>
    cases op with
    | and | or => simp only [simplifyJunction_eq extension stored]
    | clause => simp only [simplifyClause_eq extension stored]
    | bits => simp only [simplifyBits_eq extension stored]
    | tuple => rfl
    | not | bit | field =>
      cases operands with
      | nil => rfl
      | cons a rest =>
        have first := stored a List.mem_cons_self
        simp only [extension.negated?_eq first, simplifySelection_eq extension first]
    | xor | implies | eq | add | mul =>
      rcases operands with _ | ⟨a, _ | ⟨b, rest⟩⟩
      · rfl
      · rfl
      · have first := stored a (by simp)
        have second := stored b (by simp)
        simp only [simplifyXor_eq extension first second, simplifyImplies_eq extension first second,
          simplifyEq_eq extension first second, simplifyAdd_eq extension first second,
          simplifyMul_eq extension first second]
    | ite =>
      rcases operands with _ | ⟨a, _ | ⟨b, _ | ⟨c, rest⟩⟩⟩
      · rfl
      · rfl
      · rfl
      · simp only [simplifyIte_eq extension (stored a (by simp)) (stored b (by simp))
          (stored c (by simp))]

end Extension

end Rules

end Clausal
