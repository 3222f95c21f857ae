import Mathlib
import Clausal.Proofs.BooleanRules

/-!
# Simplification of conjunctions and disjunctions

A junction is `and`, `or` or `clause`. It has its neutral value exactly when all
its operands have, so the rules are right as long as they keep that condition:
`Covers` says so of a list of operands and the list of parts that replaces it,
for flattening and for leaving out repetitions alike.
-/

namespace Clausal.Rules

section Distinct

/-- What is found in front stays, and the rest is the new items of the list in
their order, each of them once. -/
theorem distinctAfter_eq (found : List ExprId) (seen : Std.HashSet ExprId)
    (operands : List ExprId) :
    ∃ kept : List ExprId, distinctAfter found seen operands = found.reverse ++ kept ∧
      kept.Sublist operands ∧ kept.Nodup ∧ ∀ e, e ∈ kept ↔ e ∈ operands ∧ e ∉ seen := by
  induction operands generalizing found seen with
  | nil => exact ⟨[], by simp [distinctAfter]⟩
  | cons e operands inductionHypothesis =>
    unfold distinctAfter
    by_cases known : seen.contains e
    · rw [if_pos known]
      obtain ⟨kept, equal, sublist, nodup, member⟩ := inductionHypothesis found seen
      refine ⟨kept, equal, sublist.cons e, nodup, fun other => ?_⟩
      grind
    · rw [if_neg known]
      obtain ⟨kept, equal, sublist, nodup, member⟩ := inductionHypothesis (e :: found) (seen.insert e)
      have isNew : e ∉ kept := by simp [member]
      refine ⟨e :: kept, by simp [equal], sublist.cons_cons e, nodup.cons isNew, fun other => ?_⟩
      grind

theorem distinct_sublist (operands : List ExprId) : (distinct operands).Sublist operands := by
  obtain ⟨kept, equal, sublist, -⟩ := distinctAfter_eq [] ∅ operands
  simpa [distinct, equal] using sublist

@[simp] theorem mem_distinct {operands : List ExprId} {e : ExprId} :
    e ∈ distinct operands ↔ e ∈ operands := by
  obtain ⟨kept, equal, -, -, member⟩ := distinctAfter_eq [] ∅ operands
  simp [distinct, equal, member]

theorem nodup_distinct (operands : List ExprId) : (distinct operands).Nodup := by
  obtain ⟨kept, equal, -, nodup, -⟩ := distinctAfter_eq [] ∅ operands
  simpa [distinct, equal] using nodup

end Distinct

/-- A part of a list weighs less than the whole, if it is not all of it. -/
theorem total_lt_or_eq_of_sublist {size : ExprId → Nat} (positive : ∀ e, 0 < size e)
    {part whole : List ExprId} (sublist : part.Sublist whole) :
    total size part < total size whole ∨ part = whole := by
  induction sublist with
  | slnil => exact .inr rfl
  | @cons part whole e sublist inductionHypothesis =>
    refine .inl ?_
    rw [total_cons]
    have := positive e
    rcases inductionHypothesis with less | rfl <;> omega
  | @cons_cons part whole e sublist inductionHypothesis =>
    rw [total_cons, total_cons]
    rcases inductionHypothesis with less | rfl
    · exact .inl (by omega)
    · exact .inr rfl

section Junction

/-- Conjunction, disjunction and clause. -/
def IsJunction (op : Op) : Prop :=
  op = .and ∨ op = .or ∨ op = .clause

/-- The value of a junction. -/
def junction (op : Op) (truths : List Bool) : Bool :=
  if neutral op then truths.all id else truths.any id

theorem eval_junction {op : Op} (isJunction : IsJunction op) (truths : List Bool) :
    op.eval (truths.map .bool) = .ok (.bool (junction op truths)) := by
  rcases isJunction with rfl | rfl | rfl <;> simp [junction, neutral]

/-- A junction has its neutral value exactly when all operands have. -/
theorem junction_eq_neutral_iff {op : Op} {truths : List Bool} :
    junction op truths = neutral op ↔ ∀ truth ∈ truths, truth = neutral op := by
  unfold junction
  cases neutral op <;> simp

/-- Negating all operands of a junction and taking the other junction negates the
value. -/
theorem junction_dual {op dual : Op} (opposite : neutral dual = !neutral op) (truths : List Bool) :
    junction dual (truths.map (!·)) = !junction op truths := by
  unfold junction
  rw [opposite]
  cases neutral op <;> simp [List.not_all_eq_any_not, List.not_any_eq_all_not]

/-- An operand that is merged is a junction with the same neutral value. -/
theorem isJunction_of_merges {op nested : Op} (isJunction : IsJunction op)
    (merged : merges op nested) : IsJunction nested ∧ neutral nested = neutral op := by
  rcases isJunction with rfl | rfl | rfl <;> simp only [merges, Bool.or_eq_true, beq_iff_eq] at merged
  · subst merged
    exact ⟨.inl rfl, rfl⟩
  all_goals
    rcases merged with rfl | rfl
    · exact ⟨.inr (.inl rfl), rfl⟩
    · exact ⟨.inr (.inr rfl), rfl⟩

end Junction

/-- Two truth values that agree on being equal to a third one are equal. -/
theorem eq_of_eq_iff {first second third : Bool} (agree : first = third ↔ second = third) :
    first = second := by
  revert agree
  cases first <;> cases second <;> cases third <;> simp

section Covering

variable {pool : Pool} {op : Op}

/-- All of several booleans are true or false. -/
def Decided (pool : Pool) (env : Env) (operands : List ExprId) : Prop :=
  ∀ operand ∈ operands, ∃ truth, pool.Truth env operand truth

/-- All of several booleans have the neutral value of a junction. -/
def AllNeutral (pool : Pool) (op : Op) (env : Env) (operands : List ExprId) : Prop :=
  ∀ operand ∈ operands, pool.Truth env operand (neutral op)

/-- The operands of a junction may be replaced by parts: these are booleans, are
all neutral exactly when the operands are, are lighter unless they are the same,
and occur in the operands. -/
structure Covers (pool : Pool) (op : Op) (operands parts : List ExprId) : Prop where
  bools : ∀ part ∈ parts, pool.HasTy part .bool
  decided : ∀ ⦃env : Env⦄, Decided pool env operands → Decided pool env parts
  neutral_iff : ∀ ⦃env : Env⦄, Decided pool env operands →
    (AllNeutral pool op env operands ↔ AllNeutral pool op env parts)
  light : total pool.weight parts < total pool.weight operands ∨ parts = operands
  below : ∀ part ∈ parts, pool.Below operands part

theorem Covers.refl {operands : List ExprId}
    (bools : ∀ operand ∈ operands, pool.HasTy operand .bool) : Covers pool op operands operands :=
  ⟨bools, fun _ => id, fun _ _ => Iff.rfl, .inr rfl, fun _ => Pool.below_of_mem⟩

theorem Covers.trans {first second third : List ExprId} (earlier : Covers pool op first second)
    (later : Covers pool op second third) : Covers pool op first third where
  bools := later.bools
  decided env holds := later.decided (earlier.decided holds)
  neutral_iff env holds := (earlier.neutral_iff holds).trans (later.neutral_iff (earlier.decided holds))
  light := by
    rcases earlier.light with less | rfl
    · rcases later.light with lighter | rfl
      · exact .inl (lighter.trans less)
      · exact .inl less
    · exact later.light
  below part member := by
    obtain ⟨middle, middleMember, further⟩ := later.below part member
    obtain ⟨operand, operandMember, reaches⟩ := earlier.below middle middleMember
    exact ⟨operand, operandMember, reaches.trans further⟩

theorem Covers.append {left right leftParts rightParts : List ExprId}
    (first : Covers pool op left leftParts) (second : Covers pool op right rightParts) :
    Covers pool op (left ++ right) (leftParts ++ rightParts) where
  bools := List.forall_mem_append.mpr ⟨first.bools, second.bools⟩
  decided env holds := by
    obtain ⟨leftHolds, rightHolds⟩ := List.forall_mem_append.mp holds
    exact List.forall_mem_append.mpr ⟨first.decided leftHolds, second.decided rightHolds⟩
  neutral_iff env holds := by
    obtain ⟨leftHolds, rightHolds⟩ := List.forall_mem_append.mp holds
    unfold AllNeutral
    rw [List.forall_mem_append, List.forall_mem_append]
    exact and_congr (first.neutral_iff leftHolds) (second.neutral_iff rightHolds)
  light := by
    rw [total_append, total_append]
    rcases first.light with less | rfl <;> rcases second.light with lighter | rfl
    · exact .inl (by omega)
    · exact .inl (by omega)
    · exact .inl (by omega)
    · exact .inr rfl
  below part member := by
    rcases List.mem_append.mp member with member | member
    · obtain ⟨operand, operandMember, reaches⟩ := first.below part member
      exact ⟨operand, List.mem_append_left right operandMember, reaches⟩
    · obtain ⟨operand, operandMember, reaches⟩ := second.below part member
      exact ⟨operand, List.mem_append_right left operandMember, reaches⟩

theorem Covers.total_le {operands parts : List ExprId} (covers : Covers pool op operands parts) :
    total pool.weight parts ≤ total pool.weight operands := by
  rcases covers.light with less | rfl
  · exact less.le
  · exact le_rfl

/-- Repeated operands may be left out. -/
theorem covers_distinct {operands : List ExprId}
    (bools : ∀ operand ∈ operands, pool.HasTy operand .bool) :
    Covers pool op operands (distinct operands) where
  bools part member := bools part (mem_distinct.mp member)
  decided env holds part member := holds part (mem_distinct.mp member)
  neutral_iff env _ := by simp [AllNeutral]
  light := total_lt_or_eq_of_sublist pool.weight_pos (distinct_sublist operands)
  below part member := Pool.below_of_mem (mem_distinct.mp member)

/-- A junction is a boolean and has at least one operand, all booleans. -/
theorem bools_of_applies {operands : List ExprId} {ty : Ty} (isJunction : IsJunction op)
    (applies : pool.Applies op operands ty) :
    ty = .bool ∧ operands ≠ [] ∧ ∀ operand ∈ operands, pool.HasTy operand .bool := by
  obtain ⟨types, each, operator⟩ := applies.typed
  have allBool : ty = .bool ∧ types ≠ [] ∧ ∀ ty ∈ types, ty = .bool := by
    rcases isJunction with rfl | rfl | rfl <;> cases operator <;> exact ⟨rfl, ‹_›, ‹_›⟩
  obtain ⟨rfl, nonempty, bools⟩ := allBool
  refine ⟨rfl, ?_, Pool.hasTy_bool_of_forall₂ each bools⟩
  rintro rfl
  exact nonempty (List.forall₂_nil_left_iff.mp each)

/-- A junction applies to any number of booleans other than zero. -/
theorem applies_junction {operands : List ExprId} (isJunction : IsJunction op)
    (nonempty : operands ≠ []) (bools : ∀ operand ∈ operands, pool.HasTy operand .bool)
    (literals : op = .clause → ∀ operand ∈ operands, pool.isLiteral operand) :
    pool.Applies op operands .bool := by
  refine ⟨⟨operands.map fun _ => .bool, ?_, ?_⟩, literals⟩
  · rw [List.forall₂_map_right_iff, List.forall₂_same]
    exact bools
  · have someType : operands.map (fun _ => Ty.bool) ≠ [] := by simpa using nonempty
    rcases isJunction with rfl | rfl | rfl
    · exact .and someType (by simp)
    · exact .or someType (by simp)
    · exact .clause someType (by simp)

theorem decided_of_truths {env : Env} {operands : List ExprId} {truths : List Bool}
    (each : List.Forall₂ (pool.Truth env) operands truths) : Decided pool env operands := by
  intro operand member
  obtain ⟨truth, -, holds⟩ := exists_of_forall₂_of_mem each member
  exact ⟨truth, holds⟩

/-- The value of a junction is neutral exactly when all operands are. -/
theorem junction_eq_neutral_iff_allNeutral {env : Env} {operands : List ExprId}
    {truths : List Bool} (each : List.Forall₂ (pool.Truth env) operands truths) :
    junction op truths = neutral op ↔ AllNeutral pool op env operands := by
  rw [junction_eq_neutral_iff]
  constructor
  · intro all operand member
    obtain ⟨truth, truthMember, holds⟩ := exists_of_forall₂_of_mem each member
    exact all truth truthMember ▸ holds
  · intro all truth member
    obtain ⟨operand, operandMember, holds⟩ := exists_of_forall₂_of_mem each.flip member
    exact Pool.Truth.unique holds (all operand operandMember)

variable (typed : pool.WellTyped)
include typed

/-- The truth value of a stored junction comes from those of its operands. -/
theorem exists_truths_of_junction (isJunction : IsJunction op) {e : ExprId} {ty : Ty}
    {operands : List ExprId} (stored : pool.node? e = some ⟨ty, .apply op operands⟩) {env : Env}
    {truth : Bool} (holds : pool.Truth env e truth) :
    ∃ truths, List.Forall₂ (pool.Truth env) operands truths ∧ truth = junction op truths := by
  obtain ⟨values, each, computed⟩ := (Pool.evaluate_apply stored).mp holds
  obtain ⟨-, -, bools⟩ := bools_of_applies isJunction (typed.fits stored)
  obtain ⟨truths, rfl, truthOf⟩ := typed.exists_truths bools each
  rw [eval_junction isJunction] at computed
  exact ⟨truths, truthOf, (Value.bool.inj (Except.ok.inj computed)).symm⟩

/-- A junction with the same neutral value may be replaced by its operands. -/
theorem covers_nested (isJunction : IsJunction op) {e : ExprId}
    (merged : (pool.op? e).any (merges op)) : Covers pool op [e] (pool.operands e) := by
  obtain ⟨nested, found, merged⟩ : ∃ nested, pool.op? e = some nested ∧ merges op nested := by
    cases found : pool.op? e with
    | none => simp [found] at merged
    | some nested => exact ⟨nested, rfl, by simpa [found] using merged⟩
  obtain ⟨nestedIs, same⟩ := isJunction_of_merges isJunction merged
  obtain ⟨ty, stored⟩ := Pool.node?_of_op? found
  obtain ⟨-, -, bools⟩ := bools_of_applies nestedIs (typed.fits stored)
  refine ⟨bools, fun env decided => ?_, fun env decided => ?_, .inl ?_, fun part member => ?_⟩
  · obtain ⟨truth, holds⟩ := decided e List.mem_cons_self
    obtain ⟨truths, each, -⟩ := exists_truths_of_junction typed nestedIs stored holds
    exact decided_of_truths each
  · obtain ⟨truth, holds⟩ := decided e List.mem_cons_self
    obtain ⟨truths, each, rfl⟩ := exists_truths_of_junction typed nestedIs stored holds
    have operandsNeutral :
        junction nested truths = neutral nested ↔ AllNeutral pool nested env (pool.operands e) :=
      junction_eq_neutral_iff_allNeutral each
    unfold AllNeutral at operandsNeutral ⊢
    rw [same] at operandsNeutral
    rw [← operandsNeutral]
    simp only [List.mem_singleton, forall_eq]
    exact ⟨holds.unique, fun equal => equal ▸ holds⟩
  · have cost : 0 < nested.weightCost := by cases nested <;> simp [Op.weightCost]
    rw [total_cons, total_nil, Pool.weight_apply stored]
    omega
  · exact ⟨e, List.mem_cons_self, .of_operand stored member .refl⟩

omit typed in
/-- A neutral constant may be left out. -/
theorem covers_nil {e : ExprId} {truth : Bool} (isConst : pool.truth? e = some truth)
    (same : truth = neutral op) : Covers pool op [e] [] where
  bools := nofun
  decided env _ := nofun
  neutral_iff env _ := by
    subst same
    simpa [AllNeutral] using Pool.truth_of_truth? isConst
  light := .inl (by simpa using pool.weight_pos e)
  below := nofun

omit typed in
/-- What an operand contributes, with the operands of nested junctions as one
list. -/
theorem unnest_eq (pool : Pool) (op : Op) (e : ExprId) :
    unnest pool op e =
      match pool.truth? e with
      | some truth => if truth = neutral op then some [] else none
      | none =>
        if (pool.op? e).any (merges op) then
          ((pool.operands e).mapM (unnest pool op)).map List.flatten
        else some [e] := by
  rw [unnest]
  cases pool.truth? e with
  | some truth => rfl
  | none =>
    dsimp only
    rw [mapM_attach (pool.operands e) (unnest pool op), Option.map_eq_bind]
    rfl

omit typed in
theorem covers_flatten {operands : List ExprId} {parts : List (List ExprId)}
    (each : ∀ operand ∈ operands, ∀ part, unnest pool op operand = some part →
      Covers pool op [operand] part)
    (found : operands.mapM (unnest pool op) = some parts) :
    Covers pool op operands parts.flatten := by
  have related := mapM_eq_some_iff.mp found
  clear found
  induction related with
  | nil => exact .refl nofun
  | @cons operand part operands parts unnested _ inductionHypothesis =>
    rw [List.flatten_cons]
    exact (each operand List.mem_cons_self part unnested).append
      (inductionHypothesis fun other member => each other (List.mem_cons_of_mem operand member))

/-- What an operand contributes covers it, and an operand that decides the
junction is not neutral. -/
theorem unnest_covers (isJunction : IsJunction op) {e : ExprId} (isBool : pool.HasTy e .bool) :
    (unnest pool op e = none → ∀ env, ¬ pool.Truth env e (neutral op)) ∧
      ∀ parts, unnest pool op e = some parts → Covers pool op [e] parts := by
  induction isBool.has using Pool.Has.induction with
  | step e node found inductionHypothesis =>
    rw [unnest_eq]
    split
    · rename_i truth isConst
      split_ifs with same
      · refine ⟨by simp, fun parts equal => ?_⟩
        cases equal
        exact covers_nil isConst same
      · refine ⟨fun _ env holds => same ?_, by simp⟩
        exact (Pool.truth_of_truth? isConst).unique holds
    · split_ifs with merged
      · have nested := covers_nested typed isJunction merged
        have each : ∀ operand ∈ pool.operands e, _ := fun operand member =>
          inductionHypothesis operand (Pool.operands_of_node? found ▸ member)
            (nested.bools operand member)
        refine ⟨fun missing env holds => ?_, fun parts equal => ?_⟩
        · obtain ⟨operand, member, missing⟩ :=
            exists_of_mapM_eq_none (Option.map_eq_none_iff.mp missing)
          refine (each operand member).1 missing env ?_
          have decided : Decided pool env [e] := decided_of_truths (.cons holds .nil)
          exact (nested.neutral_iff decided).mp (by simpa [AllNeutral] using holds) operand member
        · obtain ⟨partLists, unnested, rfl⟩ := Option.map_eq_some_iff.mp equal
          exact nested.trans (covers_flatten (fun operand member => (each operand member).2) unnested)
      · refine ⟨by simp, fun parts equal => ?_⟩
        cases equal
        exact .refl (by simpa using isBool)

end Covering

section Improvement

variable {pool : Pool} {op : Op} {operands : List ExprId} (typed : pool.WellTyped)
  (isJunction : IsJunction op) (applies : pool.Applies op operands .bool)
include isJunction applies

/-- A constant weighs at most as much as the operands of a junction. -/
theorem one_le_total : 1 ≤ total pool.weight operands := by
  obtain ⟨-, nonempty, -⟩ := bools_of_applies isJunction applies
  obtain ⟨operand, member⟩ := List.exists_mem_of_ne_nil operands nonempty
  exact (pool.weight_pos operand).trans_le (le_total_of_mem member)

include typed

/-- What a proposal for a junction owes, by truth values. -/
theorem Improves.of_junction {draft : Draft} (fits : draft.Fits pool .bool)
    (means : ∀ ⦃env : Env⦄ ⦃truth : Bool⦄, Decided pool env operands →
      (truth = neutral op ↔ AllNeutral pool op env operands) →
        draft.value pool env = .ok (.bool truth))
    (lighter : draft.weight pool ≤ total pool.weight operands)
    (draws : draft.Draws (pool.Below operands) (· ∈ simplifiedInto op)) :
    Improves pool op operands .bool draft := by
  obtain ⟨-, -, bools⟩ := bools_of_applies isJunction applies
  refine ⟨⟨fits, ?_⟩, ?_, draws⟩
  · intro env values value evaluated computed
    obtain ⟨truths, rfl, each⟩ := typed.exists_truths bools evaluated
    rw [eval_junction isJunction] at computed
    obtain rfl := Except.ok.inj computed
    exact means (decided_of_truths each) (junction_eq_neutral_iff_allNeutral each)
  · have cost : 0 < op.weightCost := by cases op <;> simp [Op.weightCost]
    omega

/-- A junction whose operands are never all neutral is decided. -/
theorem improves_of_not_neutral
    (never : ∀ env, Decided pool env operands → ¬ AllNeutral pool op env operands) :
    Improves pool op operands .bool (.truth !neutral op) := by
  refine .of_junction typed isJunction applies (Draft.fits_truth _) ?_ ?_ Draft.draws_truth
  · intro env truth decided neutral_iff
    have differs : truth ≠ neutral op := fun same => never env decided (neutral_iff.mp same)
    rw [Draft.value_truth, Bool.eq_not.mpr differs]
  · exact one_le_total isJunction applies

variable {kept : List ExprId} (covers : Covers pool op operands kept)
include covers

theorem improves_of_complementary (opposites : complementary pool kept) :
    Improves pool op operands .bool (.truth !neutral op) := by
  refine improves_of_not_neutral typed isJunction applies fun env decided allNeutral => ?_
  have keptNeutral := (covers.neutral_iff decided).mp allNeutral
  simp only [complementary, List.any_eq_true] at opposites
  obtain ⟨e, member, negated⟩ := opposites
  cases found : pool.negated? e with
  | none => simp [found] at negated
  | some operand =>
    have operandMember : operand ∈ kept := by simpa [found] using negated
    have opposite := typed.truth_negated found (keptNeutral e member)
    have := opposite.unique (keptNeutral operand operandMember)
    simp at this

theorem improves_of_nil (none : kept = []) :
    Improves pool op operands .bool (.truth (neutral op)) := by
  subst none
  refine .of_junction typed isJunction applies (Draft.fits_truth _) ?_ ?_ Draft.draws_truth
  · intro env truth decided neutral_iff
    have allNeutral := (covers.neutral_iff decided).mpr nofun
    rw [neutral_iff.mpr allNeutral, Draft.value_truth]
  · exact one_le_total isJunction applies

theorem improves_of_one {e : ExprId} (one : kept = [e]) :
    Improves pool op operands .bool (.known e) := by
  subst one
  have light := covers.total_le
  refine .of_junction typed isJunction applies (covers.bools e List.mem_cons_self) ?_
    (by simpa using light) (covers.below e List.mem_cons_self)
  intro env truth decided neutral_iff
  obtain ⟨own, holds⟩ := covers.decided decided e List.mem_cons_self
  have ownNeutral : own = neutral op ↔ AllNeutral pool op env operands := by
    rw [covers.neutral_iff decided]
    simp only [AllNeutral, List.mem_singleton, forall_eq]
    exact ⟨fun same => same ▸ holds, holds.unique⟩
  exact eq_of_eq_iff (neutral_iff.trans ownNeutral.symm) ▸ holds

theorem improves_of_kept (nonempty : kept ≠ []) (differ : kept ≠ operands)
    (literals : op = .clause → ∀ e ∈ kept, pool.isLiteral e) :
    Improves pool op operands .bool (.ofKnown op kept) := by
  refine .of_junction typed isJunction applies ?_ ?_ ?_ ?_
  · exact Draft.fits_ofKnown_iff.mpr (applies_junction isJunction nonempty covers.bools literals)
  · intro env truth decided neutral_iff
    obtain ⟨truths, each⟩ := exists_forall₂ (covers.decided decided)
    have keptNeutral : junction op truths = neutral op ↔ AllNeutral pool op env operands := by
      rw [covers.neutral_iff decided, junction_eq_neutral_iff_allNeutral each]
    rw [eq_of_eq_iff (neutral_iff.trans keptNeutral.symm)]
    refine Draft.value_ofKnown.mpr ⟨truths.map .bool, ?_, eval_junction isJunction truths⟩
    exact List.forall₂_map_right_iff.mpr each
  · have lighter := covers.light.resolve_right differ
    rcases isJunction with rfl | rfl | rfl <;> simp only [Draft.weight_ofKnown, Op.weightCost] <;>
      omega
  · refine Draft.draws_ofKnown.mpr ⟨?_, covers.below⟩
    rcases isJunction with rfl | rfl | rfl <;> simp [simplifiedInto]

omit isJunction covers in
/-- The rules for `and` and `or`. -/
theorem simplifyJunction_improves {draft : Draft} (isAndOr : op = .and ∨ op = .or)
    (found : simplifyJunction pool op operands = some draft) :
    Improves pool op operands .bool draft := by
  have isJunction : IsJunction op := by
    rcases isAndOr with rfl | rfl
    · exact .inl rfl
    · exact .inr (.inl rfl)
  have notClause : op ≠ .clause := by
    rintro rfl
    simp at isAndOr
  obtain ⟨-, -, bools⟩ := bools_of_applies isJunction applies
  have unnested := fun operand member => unnest_covers typed isJunction (bools operand member)
  unfold simplifyJunction at found
  split at found
  · rename_i missing
    cases found
    obtain ⟨operand, member, decides⟩ := exists_of_mapM_eq_none missing
    refine improves_of_not_neutral typed isJunction applies fun env _ allNeutral => ?_
    exact (unnested operand member).1 decides env (allNeutral operand member)
  · rename_i parts unnestedParts
    have flat := covers_flatten (fun operand member => (unnested operand member).2) unnestedParts
    have covers := flat.trans (covers_distinct flat.bools)
    dsimp only at found
    split at found
    · rename_i opposites
      cases found
      exact improves_of_complementary typed isJunction applies covers opposites
    · split at found
      · rename_i none
        cases found
        exact improves_of_nil typed isJunction applies covers none
      · rename_i e one
        cases found
        exact improves_of_one typed isJunction applies covers one
      · rename_i several _
        split at found
        · cases found
        · rename_i differ
          cases found
          exact improves_of_kept typed isJunction applies covers several differ
            fun isClause => absurd isClause notClause

omit isJunction applies covers in
/-- The rules for `clause`. -/
theorem simplifyClause_improves {draft : Draft} (applies : pool.Applies .clause operands .bool)
    (found : simplifyClause pool operands = some draft) :
    Improves pool .clause operands .bool draft := by
  have isJunction : IsJunction .clause := .inr (.inr rfl)
  obtain ⟨-, nonempty, bools⟩ := bools_of_applies isJunction applies
  have covers : Covers pool .clause operands (distinct operands) := covers_distinct bools
  unfold simplifyClause at found
  dsimp only at found
  split at found
  · rename_i opposites
    cases found
    exact improves_of_complementary typed isJunction applies covers opposites
  · split at found
    · rename_i e one
      cases found
      exact improves_of_one typed isJunction applies covers one
    · split at found
      · cases found
      · rename_i differ
        cases found
        refine improves_of_kept typed isJunction applies covers ?_ differ ?_
        · obtain ⟨e, member⟩ := List.exists_mem_of_ne_nil operands nonempty
          exact List.ne_nil_of_mem (mem_distinct.mpr member)
        · exact fun _ e member => applies.literals rfl e (mem_distinct.mp member)

end Improvement

end Clausal.Rules
