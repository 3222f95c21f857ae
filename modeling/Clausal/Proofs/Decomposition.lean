import Mathlib
import Clausal.Proofs.Circuits
import Clausal.Proofs.Negation

/-!
# Decomposition

`Rules.Expands` is what the decomposition of an operator owes: the same type and
values, a plain top, and operands of smaller ranks. The parts below may have to be
decomposed again. `decomposeTop_yields` is about the
step that decomposes the top of an expression.
-/

namespace Clausal.Rules

variable {pool after : Pool} {op : Op} {operands : List ExprId} {ty : Ty} {cost : Nat} {r : ExprId}

/-- An expression of a later pool takes the place of an operator on operands, at
the given cost in ranks. -/
structure Expands (pool after : Pool) (op : Op) (operands : List ExprId) (ty : Ty) (cost : Nat)
    (r : ExprId) : Prop where
  hasTy : after.HasTy r ty
  means : ∀ ⦃env : Env⦄ ⦃values : List Value⦄ ⦃value : Value⦄,
    List.Forall₂ (fun operand value => pool.evaluate operand env = .ok value) operands values →
      op.eval values = .ok value → after.evaluate r env = .ok value
  allowed : ∀ top ∈ after.op? r, Grammar.plain.Allows after top (after.operands r)
  shallow : ∀ operand ∈ after.operands r, after.rank operand < cost + pool.peak operands

/-- An expression takes the place of an operator on operands, or else the operator
may stay because it is plain there. -/
def Settles (pool after : Pool) (op : Op) (operands : List ExprId) (ty : Ty) (cost : Nat) :
    Option ExprId → Prop
  | none => Grammar.plain.Allows after op operands
  | some r => Expands pool after op operands ty cost r

/-- An application over the operands is stored in place of another one. -/
theorem expands_of_stores {top : Op} {parts : List Draft} {bound : Nat}
    (stores : (Draft.apply top parts).Stores pool ty r after) (extension : pool.Extends after)
    (means : ∀ ⦃env : Env⦄ ⦃values : List Value⦄ ⦃value : Value⦄,
      List.Forall₂ (fun operand value => pool.evaluate operand env = .ok value) operands values →
        op.eval values = .ok value → (Draft.apply top parts).value pool env = .ok value)
    (plain : Lower.supports top ∧ top ≠ .eq) (low : ∀ part ∈ parts, part.RankAtMost pool bound)
    (small : bound < cost + pool.peak operands) : Expands pool after op operands ty cost r := by
  refine ⟨stores.hasTy, fun env values value evaluated computed => ?_, ?_, fun operand member => ?_⟩
  · exact (stores.evaluate_eq env).trans (means evaluated computed)
  · obtain ⟨resultTy, built, found, -⟩ := Draft.realizes_apply_iff.mp stores.realizes
    rw [Pool.op?_of_apply found]
    rintro _ ⟨⟩
    exact Grammar.plain_allows plain.1 plain.2
  · exact (Draft.rank_le_of_realizes low extension stores.realizes operand member).trans_lt small

section Boolean

variable {a b c t e : ExprId} (typed : pool.WellTyped)
include typed

/-- An implication is decomposed. -/
theorem implication_yields (left : pool.HasTy a .bool) (right : pool.HasTy b .bool) :
    Build.Yields (implication a b).build pool fun r after =>
      Expands pool after .implies [a, b] .bool 2 r := by
  have fits : (implication a b).Fits pool .bool := fits_or (Draft.fits_negation left) right
  have stored : ∀ operand ∈ [a, b], pool.Has operand := by simp [left.has, right.has]
  have signed : ∀ part ∈ [Draft.negation a, .known b], Signed [a, b] part := by simp [Signed]
  refine (Draft.build_yields fits).mono fun r after advances stores =>
    expands_of_stores stores advances.extension ?_ (by decide)
      (fun part member => (signed part member).rankAtMost stored) (by omega)
  intro env values value evaluated computed
  obtain ⟨truths, rfl, truthOf⟩ := typed.exists_truths (by simp [left, right]) evaluated
  obtain ⟨x, y, holds, otherHolds, rfl⟩ := forall₂_two.mp truthOf
  obtain rfl := Except.ok.inj ((Op.eval_implies x y).symm.trans computed)
  exact value_or (Draft.value_negation holds) otherHolds

/-- A choice between booleans is decomposed. -/
theorem boolChoice_yields (condition : pool.HasTy c .bool) (whenTrue : pool.HasTy t .bool)
    (whenFalse : pool.HasTy e .bool) :
    Build.Yields (boolChoice c t e).build pool fun r after =>
      Expands pool after .ite [c, t, e] .bool 3 r := by
  have fits : (boolChoice c t e).Fits pool .bool :=
    fits_or (fits_and condition whenTrue) (fits_and (Draft.fits_negation condition) whenFalse)
  have stored : ∀ operand ∈ [c, t, e], pool.Has operand := by
    simp [condition.has, whenTrue.has, whenFalse.has]
  have low : ∀ parts : List Draft, (∀ part ∈ parts, Signed [c, t, e] part) →
      (Draft.apply .and parts).RankAtMost pool (1 + (1 + pool.peak [c, t, e])) :=
    fun parts signed => Draft.rankAtMost_apply (fun _ => rfl) fun part member =>
      (signed part member).rankAtMost stored
  have lowParts : ∀ part ∈ [Draft.ofKnown .and [c, t], .apply .and [.negation c, .known e]],
      part.RankAtMost pool (1 + (1 + pool.peak [c, t, e])) := by
    simp only [List.forall_mem_cons, List.not_mem_nil, false_imp_iff, implies_true, and_true]
    exact ⟨low _ (by simp [Signed]), low _ (by simp [Signed])⟩
  refine (Draft.build_yields fits).mono fun r after advances stores =>
    expands_of_stores stores advances.extension ?_ (by decide) lowParts (by omega)
  intro env values value evaluated computed
  obtain ⟨truths, rfl, truthOf⟩ :=
    typed.exists_truths (by simp [condition, whenTrue, whenFalse]) evaluated
  obtain ⟨decision, x, y, first, second, third, rfl⟩ := forall₂_three.mp truthOf
  obtain rfl := Except.ok.inj ((Op.eval_ite decision (.bool x) (.bool y)).symm.trans computed)
  have bothTrue := value_and (Draft.value_known.trans first) (Draft.value_known.trans second)
  have bothFalse := value_and (Draft.value_negation first) (Draft.value_known.trans third)
  refine (value_or bothTrue bothFalse).trans ?_
  cases decision <;> simp

end Boolean

section Rows

variable {draft : Nat → Draft} {count : Nat}

/-- An application to a row of new booleans is stored in place of an application. -/
theorem row_yields {top : Op} (bound : Nat)
    (fits : ∀ index < count, (draft index).Fits pool .bool)
    (applies : ∀ (after : Pool) (row : List ExprId), row.length = count →
      (∀ e ∈ row, after.HasTy e .bool) → after.Applies top row ty)
    (plain : Lower.supports top ∧ top ≠ .eq)
    (low : ∀ after, pool.Advances after → ∀ index < count, ∀ e, (draft index).Realizes after e →
      after.HasTy e .bool → after.rank e ≤ bound)
    (small : bound < cost + pool.peak operands)
    (means : ∀ ⦃env : Env⦄ ⦃values : List Value⦄ ⦃value : Value⦄,
      List.Forall₂ (fun operand value => pool.evaluate operand env = .ok value) operands values →
        op.eval values = .ok value → ∃ bits : List Bool,
          List.Forall₂ (fun index bit => (draft index).value pool env = .ok (.bool bit))
            (List.range count) bits ∧ top.eval (bits.map .bool) = .ok value) :
    Build.Yields (do
      let row ← Build.collect count fun index => (draft index).build
      Build.apply top row) pool fun r after => Expands pool after op operands ty cost r := by
  refine (Draft.collect_yields fits).bind fun row middle toRow rowOf => ?_
  have bools : ∀ e ∈ row, middle.HasTy e .bool := by
    intro e member
    obtain ⟨index, -, stores⟩ := exists_of_forall₂_of_mem rowOf.flip member
    exact stores.hasTy
  have length_eq : row.length = count := by simpa using rowOf.length_eq.symm
  refine (Build.apply_yields (applies middle row length_eq bools)).mono
    fun r after advances stored => ⟨⟨_, stored⟩, ?_, ?_, fun operand member => ?_⟩
  · intro env values value evaluated computed
    obtain ⟨bits, valueOf, combined⟩ := means evaluated computed
    refine (Pool.evaluate_apply stored).mpr ⟨bits.map .bool, ?_, combined⟩
    rw [List.forall₂_map_right_iff]
    exact forall₂_join rowOf valueOf fun _ _ _ _ stores value =>
      ((stores.mono advances.extension).evaluate_eq env).trans value
  · rw [Pool.op?_of_apply stored]
    rintro _ ⟨⟩
    exact Grammar.plain_allows plain.1 plain.2
  · rw [Pool.operands_of_node? stored] at member
    obtain ⟨index, inRange, stores⟩ := exists_of_forall₂_of_mem rowOf.flip member
    rw [advances.extension.rank_eq stores.hasTy.has]
    exact (low middle toRow index (List.mem_range.mp inRange) operand stores.realizes
      stores.hasTy).trans_lt small

end Rows

/-- A selection from an operand. -/
theorem rankAtMost_select {select : Op} {operand : ExprId} (cheap : ∀ ty, select.rankCost ty = 1)
    (member : operand ∈ operands) (stored : pool.Has operand) :
    (Draft.ofKnown select [operand]).RankAtMost pool (1 + pool.peak operands) := by
  refine Draft.rankAtMost_apply cheap fun part partMember => ?_
  obtain rfl := List.mem_singleton.mp partMember
  exact Draft.rankAtMost_known stored (Pool.le_peak member)

section Words

variable {a b c t e : ExprId} {width : Nat} (typed : pool.WellTyped)
include typed

/-- A choice between words is decomposed. -/
theorem wordChoice_yields (positive : 0 < width) (condition : pool.HasTy c .bool)
    (whenTrue : pool.HasTy t (.uint width)) (whenFalse : pool.HasTy e (.uint width)) :
    Build.Yields (wordChoice width c t e) pool fun r after =>
      Expands pool after .ite [c, t, e] (.uint width) 5 r := by
  refine row_yields (4 + pool.peak [c, t, e]) ?fits ?applies (by decide) ?low (by omega) ?means
  case fits =>
    intro index inside
    refine Draft.fits_apply_iff.mpr ⟨[.bool, .bool, .bool], ?_, .ite (.inl rfl), nofun⟩
    refine .cons condition (.cons ?_ (.cons ?_ .nil)) <;> rw [Draft.fits_ofKnown_iff]
    · exact ⟨⟨_, .cons whenTrue .nil, .bit inside⟩, nofun⟩
    · exact ⟨⟨_, .cons whenFalse .nil, .bit inside⟩, nofun⟩
  case applies =>
    rintro after row rfl bools
    exact Pool.applies_bits (List.length_pos_iff.mp positive) bools
  case low =>
    intro after advances index inside digit realizes isBool
    have lowParts : ∀ part ∈ [Draft.known c, .ofKnown (.bit index) [t], .ofKnown (.bit index) [e]],
        part.RankAtMost pool (1 + pool.peak [c, t, e]) := by
      simp only [List.forall_mem_cons, List.not_mem_nil, false_imp_iff, implies_true, and_true]
      refine ⟨Draft.rankAtMost_known condition.has ?_, ?_, ?_⟩
      · exact (Pool.le_peak List.mem_cons_self).trans (Nat.le_add_left _ _)
      · exact rankAtMost_select (fun _ => rfl) (by simp) whenTrue.has
      · exact rankAtMost_select (fun _ => rfl) (by simp) whenFalse.has
    have below := Draft.rank_le_of_realizes lowParts advances.extension realizes
    obtain ⟨ty, parts, found, -⟩ := Draft.realizes_apply_iff.mp realizes
    obtain rfl := isBool.unique ⟨_, found⟩
    rw [Pool.operands_of_node? found, Node.operands_apply, ← Pool.peak_le_iff] at below
    rw [Pool.rank_apply found, Pool.decidingTy_of_ne_eq (by simp)]
    have choiceCost : Op.rankCost .bool .ite = 3 := rfl
    omega
  case means =>
    intro env values value evaluated computed
    obtain ⟨_, left, right, first, second, third, rfl⟩ := forall₂_three.mp evaluated
    obtain ⟨decision, rfl⟩ := typed.exists_truth condition first
    obtain ⟨x, rfl, xSmall⟩ := Ty.admits_uint_iff.mp (typed.admits whenTrue second)
    obtain ⟨y, rfl, ySmall⟩ := Ty.admits_uint_iff.mp (typed.admits whenFalse third)
    obtain rfl := Except.ok.inj ((Op.eval_ite decision (.uint x) (.uint y)).symm.trans computed)
    refine ⟨bitsOfNumber width (if decision then x else y), ?_, ?_⟩
    · refine List.forall₂_map_right_iff.mpr (List.forall₂_same.mpr fun index _ => ?_)
      have xBit := Draft.value_ofKnown.mpr ⟨_, .cons second .nil, Op.eval_bit index x⟩
      have yBit := Draft.value_ofKnown.mpr ⟨_, .cons third .nil, Op.eval_bit index y⟩
      refine Draft.value_apply.mpr ⟨_, .cons first (.cons xBit (.cons yBit .nil)), ?_⟩
      cases decision <;> rfl
    · rw [Op.eval_bits, numberOfBits_bitsOfNumber]
      cases decision <;> simp [Nat.mod_eq_of_lt, xSmall, ySmall]

end Words

section Parts

variable {a b e : ExprId} {select : Nat → Op} {count index : Nat} {operandTy partTy : Ty}

/-- The equality of two parts has the rank that their type asks for, above the operands. -/
theorem rank_partEquality_le (typed : pool.WellTyped) (left : pool.HasTy a operandTy)
    (right : pool.HasTy b operandTy) (cheap : ∀ ty, (select index).rankCost ty = 1)
    (part : (select index).Types [operandTy] partTy) (advances : pool.Advances after)
    (realizes : (partEquality select a b index).Realizes after e) :
    after.rank e ≤ partTy.equalityRank + (1 + pool.peak [a, b]) := by
  have lowParts : ∀ part ∈ [Draft.ofKnown (select index) [a], .ofKnown (select index) [b]],
      part.RankAtMost pool (1 + pool.peak [a, b]) := by
    simp only [List.forall_mem_cons, List.not_mem_nil, false_imp_iff, implies_true, and_true]
    exact ⟨rankAtMost_select cheap (by simp) left.has, rankAtMost_select cheap (by simp) right.has⟩
  have below := Draft.rank_le_of_realizes lowParts advances.extension realizes
  obtain ⟨ty, built, found, each⟩ := Draft.realizes_apply_iff.mp realizes
  obtain ⟨p, q, first, -, rfl⟩ := forall₂_two.mp each
  obtain ⟨ownTy, partStored⟩ := Draft.realizes_ofKnown_iff.mp first
  obtain ⟨types, typesOf, ownTyped⟩ := ((advances.wellTyped typed).fits partStored).typed
  obtain ⟨_, aTy, rfl⟩ := forall₂_one.mp typesOf
  obtain rfl := aTy.unique (advances.extension.hasTy left)
  obtain rfl : ownTy = partTy := ownTyped.unique part
  rw [Pool.operands_of_node? found, Node.operands_apply, ← Pool.peak_le_iff] at below
  rw [Pool.rank_apply found, Pool.decidingTy_eq ⟨_, partStored⟩]
  exact Nat.add_le_add_left below _

/-- The equality of two parts is true exactly if the values have equal parts. -/
theorem exists_truth_partEquality {env : Env} {x y : Value}
    (part : (select index).Types [operandTy] partTy) (xAdmitted : operandTy.admits x)
    (yAdmitted : operandTy.admits y) (xValue : pool.evaluate a env = .ok x)
    (yValue : pool.evaluate b env = .ok y) :
    ∃ bit : Bool, (partEquality select a b index).value pool env = .ok (.bool bit) ∧
      (bit ↔ (select index).eval [x] = (select index).eval [y]) := by
  obtain ⟨v, vValue, -⟩ := part.exists_eval (.cons xAdmitted .nil)
  obtain ⟨w, wValue, -⟩ := part.exists_eval (.cons yAdmitted .nil)
  have first := Draft.value_ofKnown.mpr ⟨[x], .cons xValue .nil, vValue⟩
  have second := Draft.value_ofKnown.mpr ⟨[y], .cons yValue .nil, wValue⟩
  refine ⟨decide (v = w), Draft.value_apply.mpr
    ⟨[v, w], .cons first (.cons second .nil), Op.eval_eq v w⟩, ?_⟩
  simp [vValue, wValue]

/-- The equality of two expressions is decomposed to equalities of parts of them. -/
theorem partwiseEquality_yields (typed : pool.WellTyped) (left : pool.HasTy a operandTy)
    (right : pool.HasTy b operandTy) (positive : 0 < count)
    (cheap : ∀ index ty, (select index).rankCost ty = 1) (notClause : ∀ index, select index ≠ .clause)
    (parts : ∀ index < count, ∃ partTy, (select index).Types [operandTy] partTy ∧
      partTy.equalityRank + 1 < operandTy.equalityRank)
    (separates : ∀ x y, operandTy.admits x → operandTy.admits y →
      (∀ index < count, (select index).eval [x] = (select index).eval [y]) → x = y) :
    Build.Yields (partwiseEquality select count a b) pool fun r after =>
      Expands pool after .eq [a, b] .bool operandTy.equalityRank r := by
  refine row_yields (operandTy.equalityRank - 1 + pool.peak [a, b]) ?fits ?applies (by decide) ?low ?small ?means
  case fits =>
    intro index inside
    obtain ⟨partTy, part, -⟩ := parts index inside
    have selects : ∀ {operand}, pool.HasTy operand operandTy →
        (Draft.ofKnown (select index) [operand]).Fits pool partTy := fun hasTy =>
      Draft.fits_ofKnown_iff.mpr ⟨⟨_, .cons hasTy .nil, part⟩, fun isClause => absurd isClause (notClause index)⟩
    exact Draft.fits_apply_iff.mpr ⟨[partTy, partTy], .cons (selects left) (.cons (selects right) .nil),
      .eq partTy, nofun⟩
  case applies =>
    rintro after row rfl bools
    exact applies_junction (.inl rfl) (List.length_pos_iff.mp positive) bools nofun
  case low =>
    intro after advances index inside e realizes _
    obtain ⟨partTy, part, lower⟩ := parts index inside
    have bound := rank_partEquality_le typed left right (cheap index) part advances realizes
    omega
  case small =>
    obtain ⟨partTy, -, lower⟩ := parts 0 positive
    omega
  case means =>
    intro env values value evaluated computed
    obtain ⟨x, y, xValue, yValue, rfl⟩ := forall₂_two.mp evaluated
    obtain rfl := Except.ok.inj ((Op.eval_eq x y).symm.trans computed)
    have xAdmitted := typed.admits left xValue
    have yAdmitted := typed.admits right yValue
    have partTruth : ∀ index ∈ List.range count, ∃ bit : Bool,
        (partEquality select a b index).value pool env = .ok (.bool bit) ∧
          (bit ↔ (select index).eval [x] = (select index).eval [y]) := by
      intro index member
      obtain ⟨partTy, part, -⟩ := parts index (List.mem_range.mp member)
      exact exists_truth_partEquality part xAdmitted yAdmitted xValue yValue
    obtain ⟨bits, bitOf⟩ := exists_forall₂ partTruth
    have same : bits.all id ↔ x = y := by
      rw [List.all_eq_true]
      constructor
      · intro allTrue
        refine separates x y xAdmitted yAdmitted fun index inside => ?_
        obtain ⟨bit, member, -, agree⟩ := exists_of_forall₂_of_mem bitOf (List.mem_range.mpr inside)
        exact agree.mp (allTrue bit member)
      · rintro rfl bit member
        obtain ⟨index, -, -, agree⟩ := exists_of_forall₂_of_mem bitOf.flip member
        exact agree.mpr rfl
    refine ⟨bits, bitOf.imp fun _ _ => And.left, ?_⟩
    rw [Op.eval_and, Bool.eq_iff_iff.mpr (same.trans decide_eq_true_iff.symm)]

end Parts

section Equality

theorem equalityRank_le_of_mem {fields : List Ty} {field : Ty} (member : field ∈ fields) :
    field.equalityRank ≤ Ty.equalityRanks fields := by
  induction fields with
  | nil => cases member
  | cons first fields inductionHypothesis =>
    rw [Ty.equalityRanks]
    rcases List.mem_cons.mp member with rfl | member
    · exact le_max_left _ _
    · exact (inductionHypothesis member).trans (le_max_right _ _)

/-- Words of a width are equal if all their bits are. -/
theorem eq_of_bits {width : Nat} {x y : Value} (xAdmitted : (Ty.uint width).admits x)
    (yAdmitted : (Ty.uint width).admits y)
    (same : ∀ index < width, Op.eval (.bit index) [x] = Op.eval (.bit index) [y]) : x = y := by
  obtain ⟨number, rfl, small⟩ := Ty.admits_uint_iff.mp xAdmitted
  obtain ⟨other, rfl, otherSmall⟩ := Ty.admits_uint_iff.mp yAdmitted
  refine congrArg Value.uint (Nat.eq_of_testBit_eq fun index => ?_)
  by_cases inside : index < width
  · simpa using same index inside
  · have high : 2 ^ width ≤ 2 ^ index := Nat.pow_le_pow_right Nat.two_pos (not_lt.mp inside)
    rw [Nat.testBit_lt_two_pow (small.trans_le high), Nat.testBit_lt_two_pow (otherSmall.trans_le high)]

/-- Tuples of a type are equal if all their components are. -/
theorem eq_of_fields {fields : List Ty} {x y : Value} (xAdmitted : (Ty.tuple fields).admits x)
    (yAdmitted : (Ty.tuple fields).admits y)
    (same : ∀ index < fields.length, Op.eval (.field index) [x] = Op.eval (.field index) [y]) :
    x = y := by
  obtain ⟨xs, rfl, xsOf⟩ := Ty.admits_tuple_iff.mp xAdmitted
  obtain ⟨ys, rfl, ysOf⟩ := Ty.admits_tuple_iff.mp yAdmitted
  have xLength := xsOf.length_eq
  have yLength := ysOf.length_eq
  refine congrArg Value.tuple (List.ext_getElem (xLength.symm.trans yLength) fun index left right => ?_)
  have component := same index (xLength ▸ left)
  rw [Op.eval_field (List.getElem?_eq_getElem left), Op.eval_field (List.getElem?_eq_getElem right)]
    at component
  exact Except.ok.inj component

variable {a b : ExprId} {operandTy : Ty} (typed : pool.WellTyped)
include typed

/-- An equality is decomposed, unless it is one of booleans. Words need a bit. -/
theorem decomposeEquality_yields (wide : operandTy ≠ .uint 0) (left : pool.HasTy a operandTy)
    (right : pool.HasTy b operandTy) :
    Build.Yields (decomposeEquality operandTy a b) pool fun result after =>
      Settles pool after .eq [a, b] .bool operandTy.equalityRank result := by
  unfold decomposeEquality
  split
  · refine .pure ⟨rfl, fun operand member _ => ?_⟩
    rcases List.mem_pair.mp member with rfl | rfl
    · exact left
    · exact right
  · rename_i width
    have positive : 0 < width := Nat.pos_of_ne_zero fun zero => wide (zero ▸ rfl)
    refine (partwiseEquality_yields typed left right positive (fun _ _ => rfl) (by simp)
      (fun index inside => ⟨.bool, .bit inside, by simp [Ty.equalityRank]⟩) fun x y => eq_of_bits).bind ?_
    exact fun r after _ expands => .pure expands
  · refine (Build.truth_yields true).bind fun r after advances stored =>
      .pure (show Expands pool after .eq [a, b] .bool _ r from ⟨⟨_, stored⟩, ?_, ?_, ?_⟩)
    · intro env values value evaluated computed
      obtain ⟨x, y, xValue, yValue, rfl⟩ := forall₂_two.mp evaluated
      have same : x = y := eq_of_fields (typed.admits left xValue) (typed.admits right yValue) (by simp)
      obtain rfl := Except.ok.inj ((Op.eval_eq x y).symm.trans computed)
      rw [Pool.evaluate_const stored, decide_eq_true same]
    · simp [Pool.op?, stored, Node.op?]
    · simp [Pool.operands_of_node? stored]
  · rename_i fields nonempty
    refine (partwiseEquality_yields typed left right ?_ (fun _ _ => rfl) (by simp) ?_
      fun x y => eq_of_fields).bind fun r after _ expands => .pure expands
    · exact List.length_pos_iff.mpr fun none => nonempty none
    · intro index inside
      refine ⟨fields[index], .field (List.getElem?_eq_getElem inside), ?_⟩
      have bound := equalityRank_le_of_mem (List.getElem_mem inside)
      simp only [Ty.equalityRank]
      omega

end Equality

/-- A circuit is stored in place of an operator on words. -/
theorem expands_of_circuit {a b : ExprId} {left right width level : Nat} {operation : Nat → Nat → Nat}
    (typed : pool.WellTyped) (leftWord : pool.HasTy a (.uint left))
    (rightWord : pool.HasTy b (.uint right)) (extension : pool.Extends after)
    (computes : ∀ x y, op.eval [.uint x, .uint y] = .ok (.uint (operation x y)))
    (small : level < cost + pool.peak [a, b])
    (circuit : Circuit.IsCircuit after level width a b left right operation r) :
    Expands pool after op [a, b] (.uint width) cost r := by
  obtain ⟨digits, stored, isBit⟩ := circuit.exists_digits
  refine ⟨⟨_, stored⟩, ?_, ?_, fun operand member => ?_⟩
  · intro env values value evaluated computed
    obtain ⟨_, _, xValue, yValue, rfl⟩ := forall₂_two.mp evaluated
    obtain ⟨x, rfl, xSmall⟩ := Ty.admits_uint_iff.mp (typed.admits leftWord xValue)
    obtain ⟨y, rfl, ySmall⟩ := Ty.admits_uint_iff.mp (typed.admits rightWord yValue)
    obtain rfl := Except.ok.inj ((computes x y).symm.trans computed)
    rw [← extension.evaluate_eq leftWord.has] at xValue
    rw [← extension.evaluate_eq rightWord.has] at yValue
    exact circuit.means xValue xSmall yValue ySmall
  · rw [Pool.op?_of_apply stored]
    rintro _ ⟨⟩
    exact Grammar.plain_allows rfl (by simp)
  · rw [Pool.operands_of_node? stored] at member
    exact (isBit operand member).rank_le.trans_lt small

/-- A choice is decomposed. Words need a bit. -/
theorem decomposeChoice_yields {c t e : ExprId} (typed : pool.WellTyped) (wide : ty ≠ .uint 0)
    (condition : pool.HasTy c .bool) (whenTrue : pool.HasTy t ty) (whenFalse : pool.HasTy e ty)
    (scalar : ty.isBool ∨ ty.isUint) :
    Build.Yields (decomposeChoice ty c t e) pool fun result after =>
      Settles pool after .ite [c, t, e] ty (Op.rankCost ty .ite) result := by
  cases ty with
  | bool =>
    refine (boolChoice_yields typed condition whenTrue whenFalse).bind ?_
    exact fun r after _ expands => .pure expands
  | uint width =>
    have positive : 0 < width := Nat.pos_of_ne_zero fun zero => wide (zero ▸ rfl)
    refine (wordChoice_yields typed positive condition whenTrue whenFalse).bind ?_
    exact fun r after _ expands => .pure expands
  | tuple fields => simp [Ty.isBool, Ty.isUint] at scalar

theorem rank_le_peak_pair (pool : Pool) (a b : ExprId) :
    pool.rank a ≤ pool.peak [a, b] ∧ pool.rank b ≤ pool.peak [a, b] :=
  ⟨Pool.le_peak (by simp), Pool.le_peak (by simp)⟩

/-- An operator on operands that fit is decomposed where that is needed, and
the cost is what its rank allows for. -/
theorem decompose_yields (typed : pool.WellTyped) (applies : pool.Applies op operands ty)
    (decomposes : op.decomposes) (wide : pool.decidingTy ⟨ty, .apply op operands⟩ ≠ .uint 0) :
    Build.Yields (decompose op operands) pool fun result after =>
      Settles pool after op operands ty
        (op.rankCost (pool.decidingTy ⟨ty, .apply op operands⟩)) result := by
  obtain ⟨types, each, operator⟩ := applies.typed
  cases operator with
  | implies =>
    obtain ⟨a, b, left, right, rfl⟩ := forall₂_two.mp each.flip
    refine (implication_yields typed left right).bind ?_
    exact fun r after _ expands => .pure expands
  | ite scalar =>
    obtain ⟨c, t, e, condition, whenTrue, whenFalse, rfl⟩ := forall₂_three.mp each.flip
    rw [Pool.decidingTy_of_ne_eq (by simp)] at wide ⊢
    exact Build.tyOf_yields whenTrue
      (decomposeChoice_yields typed wide condition whenTrue whenFalse scalar)
  | eq operandTy =>
    obtain ⟨a, b, left, right, rfl⟩ := forall₂_two.mp each.flip
    rw [Pool.decidingTy_eq left] at wide ⊢
    exact Build.tyOf_yields left (decomposeEquality_yields typed wide left right)
  | @add width positive left right =>
    obtain ⟨a, b, leftWord, rightWord, rfl⟩ := forall₂_two.mp each.flip
    obtain ⟨leftLow, rightLow⟩ := rank_le_peak_pair pool a b
    refine (Circuit.add_yields leftWord rightWord leftLow rightLow positive).bind
      fun r after advances circuit => .pure ?_
    refine expands_of_circuit typed leftWord rightWord advances.extension (Op.eval_add width) ?_ circuit
    simp only [Op.rankCost]
    omega
  | @mul width positive left right =>
    obtain ⟨a, b, leftWord, rightWord, rfl⟩ := forall₂_two.mp each.flip
    obtain ⟨leftLow, rightLow⟩ := rank_le_peak_pair pool a b
    refine (Circuit.mul_yields leftWord rightWord leftLow rightLow positive).bind
      fun r after advances circuit => .pure ?_
    refine expands_of_circuit typed leftWord rightWord advances.extension (Op.eval_mul width) ?_ circuit
    simp only [Op.rankCost]
    nlinarith
  | _ => cases decomposes

/-- The parts of words of width zero are none, and no operator takes none. -/
theorem decompose_eq_error (applies : pool.Applies op operands ty) (decomposes : op.decomposes)
    (narrow : pool.decidingTy ⟨ty, .apply op operands⟩ = .uint 0) :
    ∃ failure, decompose op operands pool = .error failure pool := by
  obtain ⟨types, each, operator⟩ := applies.typed
  cases operator with
  | implies => cases narrow
  | ite scalar =>
    obtain ⟨c, t, e, -, whenTrue, -, rfl⟩ := forall₂_three.mp each.flip
    rw [Pool.decidingTy_of_ne_eq (by simp)] at narrow
    obtain rfl := narrow
    refine ⟨.error (.arity .bits 0), ?_⟩
    change (Build.tyOf t >>= fun ty => decomposeChoice ty c t e) pool = _
    rw [Build.tyOf_bind whenTrue]
    rfl
  | eq operandTy =>
    obtain ⟨a, b, left, -, rfl⟩ := forall₂_two.mp each.flip
    rw [Pool.decidingTy_eq left] at narrow
    obtain rfl := narrow
    refine ⟨.error (.arity .and 0), ?_⟩
    change (Build.tyOf a >>= fun ty => decomposeEquality ty a b) pool = _
    rw [Build.tyOf_bind left]
    rfl
  | add positive left right | mul positive left right =>
    rw [Pool.decidingTy_of_ne_eq (by simp)] at narrow
    cases narrow
    exact absurd positive (Nat.lt_irrefl 0)
  | _ => cases decomposes

end Clausal.Rules

namespace Clausal.Pass

variable {pool : Pool} {e : ExprId}

/-- A rule at the top of an expression either does not apply, or its result takes
the place of the expression. -/
theorem atTop_yields {applies : Op → Bool} {rule : Op → List ExprId → Build (Option ExprId)}
    {done : ExprId → Pool → Prop}
    (kept : (∀ op ∈ pool.op? e, ¬ applies op) → done e pool)
    (applied : ∀ ty op operands, pool.node? e = some ⟨ty, .apply op operands⟩ → applies op →
      Build.Yields (rule op operands) pool fun result after => done (result.getD e) after) :
    Build.Yields (atTop applies rule e) pool done := by
  unfold atTop
  refine .get ?_
  split
  · rename_i ty op operands stored
    split
    · rename_i permitted
      exact (applied ty op operands stored permitted).bind fun result after _ holds => .pure holds
    · rename_i refused
      refine .pure (kept fun other found => ?_)
      rw [Pool.op?_of_apply stored] at found
      cases found
      exact refused
  · rename_i noApplication
    refine .pure (kept fun op found => ?_)
    obtain ⟨ty, stored⟩ := Pool.node?_of_op? found
    exact absurd stored (noApplication _ _ _)

/-- An expression stays at the top if it is plain there. -/
theorem tops_self (stored : pool.Has e)
    (allowed : ∀ op ∈ pool.op? e, Grammar.plain.Allows pool op (pool.operands e)) :
    Tops .decompose pool e e :=
  ⟨.refl stored, fun _ => rfl, fun _ member => Pool.rank_lt_of_mem_operands member,
    fun notDecompose => absurd rfl notDecompose, fun _ => allowed, nofun⟩

theorem plain_of_not_decomposes {op : Op} (kept : ¬ op.decomposes) : Lower.supports op ∧ op ≠ .eq := by
  cases op <;> simp [Op.decomposes, Lower.supports] at kept ⊢

/-- The top of an expression has no decomposition: it is a choice between words of
width zero, or an equality of such words. -/
def Blocked (pool : Pool) (e : ExprId) : Prop :=
  ∃ ty op operands, pool.node? e = some ⟨ty, .apply op operands⟩ ∧ op.decomposes ∧
    pool.decidingTy ⟨ty, .apply op operands⟩ = .uint 0

/-- Nothing is blocked if all words have positive widths. -/
theorem not_blocked_of_sized (typed : pool.WellTyped) (sized : pool.Sized) : ¬ Blocked pool e := by
  rintro ⟨ty, op, operands, found, decomposes, narrow⟩
  have narrowSized : ∀ {x}, ¬ pool.HasTy x (.uint 0) := fun hasTy => Nat.lt_irrefl 0 (sized hasTy)
  by_cases isEq : op = .eq
  · subst isEq
    obtain ⟨types, each, operator⟩ := (typed.fits found).typed
    cases operator
    obtain ⟨a, b, left, -, rfl⟩ := forall₂_two.mp each.flip
    rw [Pool.decidingTy_eq left] at narrow
    exact narrowSized (narrow ▸ left)
  · rw [Pool.decidingTy_of_ne_eq isEq] at narrow
    obtain rfl := narrow
    exact narrowSized ⟨_, found⟩

/-- A rule that fails at the top of an expression makes the step fail. -/
theorem atTop_eq_error {applies : Op → Bool} {rule : Op → List ExprId → Build (Option ExprId)} {ty : Ty}
    {op : Op} {operands : List ExprId} {failure : Failure BuildError}
    (found : pool.node? e = some ⟨ty, .apply op operands⟩) (permitted : applies op)
    (failed : rule op operands pool = .error failure pool) :
    atTop applies rule e pool = .error failure pool := by
  unfold atTop
  simp only [bind, EStateM.bind, get, getThe, MonadStateOf.get, EStateM.get, found, permitted, if_true,
    failed]

/-- A blocked expression makes the step fail, and nothing is stored. -/
theorem decomposeTop_eq_error (typed : pool.WellTyped) (blocked : Blocked pool e) :
    ∃ failure, atTop Op.decomposes Rules.decompose e pool = .error failure pool := by
  obtain ⟨ty, op, operands, found, decomposes, narrow⟩ := blocked
  obtain ⟨failure, failed⟩ := Rules.decompose_eq_error (typed.fits found) decomposes narrow
  exact ⟨failure, atTop_eq_error found decomposes failed⟩

/-- Whether an expression is blocked depends on its tree only. -/
theorem Blocked.of_alike {pools : Pools} {other : ExprId} (alike : pools.Alike e other)
    (blocked : Blocked pools.left e) : Blocked pools.right other := by
  obtain ⟨ty, op, operands, found, decomposes, narrow⟩ := blocked
  cases alike.node with
  | var left | const left =>
    rw [found] at left
    cases left
  | apply left right each =>
    rw [found] at left
    cases left
    refine ⟨_, _, _, right, decomposes, ?_⟩
    by_cases isEq : op = .eq
    · subst isEq
      obtain ⟨types, operandTypes, operator⟩ := (pools.leftTyped.fits found).typed
      cases operator with
      | eq operandTy =>
        obtain ⟨a, b, hasTy, -, rfl⟩ := forall₂_two.mp operandTypes.flip
        obtain ⟨c, d, first, -, rfl⟩ := forall₂_two.mp each
        rw [Pool.decidingTy_eq hasTy] at narrow
        rw [Pool.decidingTy_eq (first.hasTy_iff.mp hasTy), narrow]
    · rw [Pool.decidingTy_of_ne_eq isEq] at narrow ⊢
      exact narrow

/-- Nothing becomes of a blocked expression at the top. -/
theorem Blocked.not_turns (blocked : Blocked pool e) (typed : pool.WellTyped) :
    ¬∃ top, Turns .decompose (pool.tree e) top := by
  rintro ⟨top, before, after, x, r, beforeTyped, stored, same, ended, -⟩
  have eStored : pool.Has e := by
    obtain ⟨ty, op, operands, found, -⟩ := blocked
    exact Pool.has_iff.mpr ⟨_, found⟩
  let pools : Pools := ⟨pool, before, typed, beforeTyped⟩
  have alike : pools.Alike e x := ⟨eStored, stored, same.symm⟩
  obtain ⟨failure, failed⟩ := decomposeTop_eq_error beforeTyped (blocked.of_alike alike)
  exact absurd (ended.symm.trans failed) (by simp)

/-- Decomposing the top of an expression makes a top for it, unless it is blocked. -/
theorem decomposeTop_yields (typed : pool.WellTyped) (stored : pool.Has e)
    (free : ¬ Blocked pool e) :
    Build.Yields (atTop Op.decomposes Rules.decompose e) pool fun r after =>
      Tops .decompose after e r := by
  refine atTop_yields (fun refused => tops_self stored fun op found => ?_) ?_
  · obtain ⟨supported, notEq⟩ := plain_of_not_decomposes (refused op found)
    exact Grammar.plain_allows supported notEq
  · intro ty op operands found decomposes
    have wide : pool.decidingTy ⟨ty, .apply op operands⟩ ≠ .uint 0 :=
      fun narrow => free ⟨ty, op, operands, found, decomposes, narrow⟩
    refine (Rules.decompose_yields typed (typed.fits found) decomposes wide).mono ?_
    intro result after advances settles
    have extension := advances.extension
    cases result with
    | none =>
      refine tops_self (extension.has stored) fun other otherFound => ?_
      rw [Pool.op?_of_apply (extension found)] at otherFound
      cases otherFound
      rw [Pool.operands_of_node? (extension found)]
      exact settles
    | some r =>
      refine ⟨⟨⟨ty, ⟨_, extension found⟩, settles.hasTy⟩, ?_⟩, ?_, ?_,
        fun notDecompose => absurd rfl notDecompose, fun _ => settles.allowed, nofun⟩
      · intro env value evaluated
        rw [extension.evaluate_eq stored] at evaluated
        obtain ⟨values, valueOf, computed⟩ := (Pool.evaluate_apply found).mp evaluated
        exact settles.means valueOf computed
      · intro rigid
        obtain rfl | ⟨_, rfl⟩ | ⟨_, rfl⟩ := rigid.op_cases (extension found) <;> cases decomposes
      · intro operand member
        rw [extension.rank_eq stored, Pool.rank_apply found]
        exact settles.shallow operand member

end Clausal.Pass
