import Mathlib
import Clausal.Proofs.Assertion

/-!
# Generators

A variable whose bits are known in part is pinned down by equalities: they are true
exactly for the values that have the known bits. The equalities of several variables
make up the generator of a model.
-/

namespace Clausal

/-- A row of bits has the bits that are given. -/
def Matches (bits : List (Option Bool)) (row : List Bool) : Prop :=
  List.Forall₂ (fun bit truth => ∀ given ∈ bit, given = truth) bits row

section Matching

variable {bits : List (Option Bool)} {row : List Bool}

/-- A row that is given as a whole is the only one that matches. -/
theorem matches_map_some_iff {given : List Bool} : Matches (given.map some) row ↔ given = row := by
  unfold Matches
  rw [List.forall₂_map_left_iff]
  simp [List.forall₂_eq_eq_eq]

/-- Every given bit is at its position in the row. -/
theorem matches_iff_getElem? (length : bits.length = row.length) :
    Matches bits row ↔
      ∀ (index : Nat) (given : Bool), bits[index]? = some (some given) → row[index]? = some given := by
  unfold Matches
  rw [List.forall₂_iff_get]
  constructor
  · rintro ⟨-, each⟩ index given found
    obtain ⟨inside, bit⟩ := List.getElem?_eq_some_iff.mp found
    have otherInside : index < row.length := length ▸ inside
    rw [List.getElem?_eq_getElem otherInside, each index inside otherInside given bit]
    rfl
  · refine fun each => ⟨length, fun index inside otherInside given bit => ?_⟩
    have found := each index given (List.getElem?_eq_some_iff.mpr ⟨inside, bit⟩)
    rw [List.getElem?_eq_getElem otherInside, Option.some.injEq] at found
    exact found.symm

/-- If every row of a length matches, nothing is given. -/
theorem all_none_of_matches (always : ∀ row : List Bool, row.length = bits.length → Matches bits row) :
    bits.all Option.isNone := by
  refine List.all_eq_true.mpr fun bit member => ?_
  obtain ⟨index, found⟩ := List.getElem?_of_mem member
  cases bit with
  | none => rfl
  | some given =>
    -- the row of the opposite bit does not match
    have length : bits.length = (List.replicate bits.length !given).length := by simp
    have opposite := (matches_iff_getElem? length).mp (always _ length.symm) index given found
    rw [List.getElem?_replicate] at opposite
    split at opposite <;> simp at opposite

/-- If nothing is given, every row of the right length matches. -/
theorem matches_of_all_none (length : bits.length = row.length) (none : bits.all Option.isNone) :
    Matches bits row := by
  refine (matches_iff_getElem? length).mpr fun index given found => ?_
  have isNone := List.all_eq_true.mp none (some given) (List.mem_of_getElem? found)
  cases isNone

theorem matches_append_iff {first rest : List Bool} :
    Matches bits (first ++ rest) ↔
      Matches (bits.take first.length) first ∧ Matches (bits.drop first.length) rest := by
  constructor
  · exact fun all => ⟨List.forall₂_take_append bits first rest all, List.forall₂_drop_append bits first rest all⟩
  · rintro ⟨left, right⟩
    have all : Matches (bits.take first.length ++ bits.drop first.length) (first ++ rest) :=
      List.rel_append left right
    rwa [List.take_append_drop] at all

theorem mem_givenBits_iff {index : Nat} {given : Bool} :
    (index, given) ∈ Solve.givenBits bits ↔ bits[index]? = some (some given) := by
  simp [Solve.givenBits, List.mem_zipIdx_iff_getElem?]

theorem mem_openBits_iff {index : Nat} : index ∈ Solve.openBits bits ↔ bits[index]? = some none := by
  simp [Solve.openBits, List.mem_zipIdx_iff_getElem?]

end Matching

namespace Solve

variable {pool : Pool} {e : ExprId} {ty : Ty} {bits : List (Option Bool)} {parts : List ExprId}

/-- Booleans that are all true exactly when an expression has the given bits. -/
structure Pins (pool : Pool) (e : ExprId) (matching : Value → Prop) (parts : List ExprId) : Prop where
  bools : ∀ part ∈ parts, pool.HasTy part .bool
  means : ∀ env value, pool.evaluate e env = .ok value →
    (∀ part ∈ parts, ∃ truth, pool.evaluate part env = .ok (.bool truth)) ∧
      ((∀ part ∈ parts, pool.Accepts env part) ↔ matching value)
  reaches : ∀ part ∈ parts, ∀ x, pool.Reaches part x → pool.isVariable x → pool.Reaches e x

theorem Pins.mono {before after : Pool} {matching : Value → Prop} (pins : Pins before e matching parts)
    (extension : before.Extends after) (stored : before.Has e) : Pins after e matching parts := by
  have partStored : ∀ part ∈ parts, before.Has part := fun part member => (pins.bools part member).has
  refine ⟨fun part member => extension.hasTy (pins.bools part member), ?_, ?_⟩
  · intro env value evaluated
    rw [extension.evaluate_eq stored] at evaluated
    obtain ⟨truths, means⟩ := pins.means env value evaluated
    refine ⟨fun part member => ?_, ?_⟩
    · rw [extension.evaluate_eq (partStored part member)]
      exact truths part member
    · rw [← means]
      refine forall₂_congr fun part member => ?_
      rw [Pool.Accepts, Pool.Accepts, extension.evaluate_eq (partStored part member)]
  · intro part member x reaches isVariable
    rw [extension.reaches_iff (partStored part member)] at reaches
    rw [extension.isVariable_eq (reaches.has (partStored part member))] at isVariable
    rw [extension.reaches_iff stored]
    exact pins.reaches part member x reaches isVariable

section Combining

variable {matching other : Value → Prop}

theorem Pins.nil (always : ∀ env value, pool.evaluate e env = .ok value → matching value) :
    Pins pool e matching [] :=
  ⟨nofun, fun env value evaluated => ⟨nofun, by simp [always env value evaluated]⟩, nofun⟩

theorem Pins.append {others : List ExprId} (pins : Pins pool e matching parts)
    (otherPins : Pins pool e other others) :
    Pins pool e (fun value => matching value ∧ other value) (parts ++ others) := by
  refine ⟨List.forall_mem_append.mpr ⟨pins.bools, otherPins.bools⟩, fun env value evaluated => ?_,
    List.forall_mem_append.mpr ⟨pins.reaches, otherPins.reaches⟩⟩
  obtain ⟨truths, means⟩ := pins.means env value evaluated
  obtain ⟨otherTruths, otherMeans⟩ := otherPins.means env value evaluated
  exact ⟨List.forall_mem_append.mpr ⟨truths, otherTruths⟩, by
    rw [List.forall_mem_append, means, otherMeans]⟩

theorem Pins.congr (pins : Pins pool e matching parts)
    (same : ∀ env value, pool.evaluate e env = .ok value → (matching value ↔ other value)) :
    Pins pool e other parts :=
  ⟨pins.bools, fun env value evaluated => ⟨(pins.means env value evaluated).1,
    (pins.means env value evaluated).2.trans (same env value evaluated)⟩, pins.reaches⟩

theorem Pins.of_forall₂ {κ : Type} {demand : κ → Value → Prop} {keys : List κ}
    (each : List.Forall₂ (fun key part => Pins pool e (demand key) [part]) keys parts) :
    Pins pool e (fun value => ∀ key ∈ keys, demand key value) parts := by
  induction each with
  | nil => exact .nil fun env value evaluated => nofun
  | cons pins rest inductionHypothesis =>
    exact (pins.append inductionHypothesis).congr fun env value evaluated => by
      rw [List.forall_mem_cons]

theorem not_isVariable_of_apply {op : Op} {operands : List ExprId}
    (stored : pool.node? e = some ⟨ty, .apply op operands⟩) : ¬pool.isVariable e := by
  simp [Pool.isVariable, Pool.variableName?, stored]

/-- What pins down a part of an expression pins down the expression. -/
theorem Pins.through {op : Op} {component : ExprId} {componentTy : Ty}
    (pins : Pins pool component matching parts)
    (stored : pool.node? component = some ⟨componentTy, .apply op [e]⟩)
    (computes : ∀ env value, pool.evaluate e env = .ok value →
      ∃ result, op.eval [value] = .ok result ∧ (matching result ↔ other value)) :
    Pins pool e other parts := by
  refine ⟨pins.bools, fun env value evaluated => ?_, fun part member x reaches isVariable => ?_⟩
  · obtain ⟨result, computed, same⟩ := computes env value evaluated
    rw [← same]
    exact pins.means env result
      ((Pool.evaluate_apply stored).mpr ⟨[value], .cons evaluated .nil, computed⟩)
  · have differ : x ≠ component := fun same => not_isVariable_of_apply stored (same ▸ isVariable)
    obtain ⟨operand, operandMember, further⟩ :=
      (pins.reaches part member x reaches isVariable).exists_operand stored differ
    rwa [List.mem_singleton.mp operandMember] at further

end Combining

/-- An expression is compared with a constant. -/
def Equates (pool : Pool) (e : ExprId) (ty : Ty) (value : Value) (equality : ExprId) : Prop :=
  ∃ constant, pool.node? constant = some ⟨ty, .const value⟩ ∧
    pool.node? equality = some ⟨.bool, .apply .eq [e, constant]⟩

theorem Equates.mono {before after : Pool} {value : Value} {equality : ExprId}
    (equates : Equates before e ty value equality) (extension : before.Extends after) :
    Equates after e ty value equality := by
  obtain ⟨constant, isConstant, isEquality⟩ := equates
  exact ⟨constant, extension isConstant, extension isEquality⟩

theorem Equates.evaluate_eq {value own : Value} {equality : ExprId} {env : Env}
    (equates : Equates pool e ty value equality) (evaluated : pool.evaluate e env = .ok own) :
    pool.evaluate equality env = .ok (.bool (own = value)) := by
  obtain ⟨constant, isConstant, isEquality⟩ := equates
  exact (Pool.evaluate_apply isEquality).mpr
    ⟨[own, value], .cons evaluated (.cons (Pool.evaluate_const isConstant) .nil), rfl⟩

/-- The equality of an expression with a constant is true for that value only. -/
theorem pins_equality {value : Value} {equality : ExprId} (equates : Equates pool e ty value equality) :
    Pins pool e (· = value) [equality] := by
  have evaluates : ∀ env own, pool.evaluate e env = .ok own →
      pool.evaluate equality env = .ok (.bool (own = value)) := fun _ _ => equates.evaluate_eq
  obtain ⟨constant, isConstant, isEquality⟩ := equates
  refine ⟨by simp [Pool.HasTy, isEquality], fun env own ownValue => ?_, ?_⟩
  · refine ⟨fun part member => ⟨Decidable.decide (own = value), ?_⟩,
      by simp [Pool.Accepts, evaluates env own ownValue]⟩
    rw [List.mem_singleton.mp member]
    exact evaluates env own ownValue
  · intro part member x reaches isVariable
    rw [List.mem_singleton.mp member] at reaches
    have differ : x ≠ equality := fun same => not_isVariable_of_apply isEquality (same ▸ isVariable)
    obtain ⟨operand, operandMember, further⟩ := reaches.exists_operand isEquality differ
    rcases List.mem_pair.mp operandMember with rfl | rfl
    · exact further
    · rw [further.eq_of_leaf isConstant rfl] at isVariable
      simp [Pool.isVariable, Pool.variableName?, isConstant] at isVariable

/-- One bit of a word is compared with a constant. -/
theorem bitEquality_yields {width index : Nat} (typed : pool.WellTyped)
    (hasTy : pool.HasTy e (.uint width)) (inside : index < width) (given : Bool) :
    Build.Yields (bitEquality e index given) pool fun part after =>
      Pins after e (fun value => ∃ number, value = .uint number ∧ number.testBit index = given) [part] := by
  have bitApplies : pool.Applies (.bit index) [e] .bool :=
    ⟨⟨[.uint width], .cons hasTy .nil, .bit inside⟩, nofun⟩
  refine (Build.apply_yields bitApplies).bind fun bit first toFirst isBit => ?_
  refine (Build.truth_yields given).bind fun constant second toSecond isConstant => ?_
  have isBit := toSecond.extension isBit
  have eqApplies : second.Applies .eq [bit, constant] .bool :=
    ⟨⟨[.bool, .bool], .cons ⟨_, isBit⟩ (.cons ⟨_, isConstant⟩ .nil), .eq .bool⟩, nofun⟩
  refine (Build.apply_yields eqApplies).mono fun equality after toLast isEquality => ?_
  have pins := pins_equality ⟨constant, toLast.extension isConstant, isEquality⟩
  refine pins.through (toLast.extension isBit) fun env value evaluated => ?_
  have lastTyped := toLast.wellTyped (toSecond.wellTyped (toFirst.wellTyped typed))
  have lastTy := toLast.extension.hasTy (toSecond.extension.hasTy (toFirst.extension.hasTy hasTy))
  obtain ⟨number, rfl, -⟩ := Ty.admits_uint_iff.mp (lastTyped.admits lastTy evaluated)
  exact ⟨_, Op.eval_bit index number, by simp⟩

/-- The given bits of a word are compared with constants. -/
theorem wordConstraints_yields {width : Nat} (typed : pool.WellTyped)
    (hasTy : pool.HasTy e (.uint width)) (length : bits.length = width) :
    Build.Yields (wordConstraints e bits) pool fun parts after =>
      Pins after e (fun value => Matches bits ((Ty.uint width).encode value)) parts := by
  have each : ∀ pair ∈ givenBits bits, ∀ after, pool.Advances after →
      Build.Yields (bitEquality e pair.1 pair.2) after fun part last => last.Has e ∧
        Pins last e (fun value => ∃ number, value = .uint number ∧ number.testBit pair.1 = pair.2)
          [part] := by
    intro pair member after advances
    have inside : pair.1 < width := by
      obtain ⟨bound, -⟩ := List.getElem?_eq_some_iff.mp (mem_givenBits_iff.mp member)
      exact length ▸ bound
    have afterTy := advances.extension.hasTy hasTy
    refine (bitEquality_yields (advances.wellTyped typed) afterTy inside pair.2).mono ?_
    exact fun part last further pins => ⟨further.extension.has afterTy.has, pins⟩
  refine (Stateful.Yields.mapM (fun (pair : Nat × Bool) part (after : Pool) => after.Has e ∧
    Pins after e (fun value => ∃ number, value = .uint number ∧ number.testBit pair.1 = pair.2) [part])
    ?_ each).mono ?_
  · rintro pair part before after advances ⟨stored, pins⟩
    exact ⟨advances.extension.has stored, pins.mono advances.extension stored⟩
  · intro parts after advances all
    have pins : Pins after e _ parts := .of_forall₂ (all.imp fun pair part both => both.2)
    refine pins.congr fun env value evaluated => ?_
    have admitted := (advances.wellTyped typed).admits (advances.extension.hasTy hasTy) evaluated
    have size := Ty.length_encode _ value admitted
    obtain ⟨number, rfl, -⟩ := Ty.admits_uint_iff.mp admitted
    rw [matches_iff_getElem? (length.trans size.symm), Prod.forall]
    refine forall₂_congr fun index given => ?_
    rw [mem_givenBits_iff]
    refine imp_congr_right fun found => ?_
    have inside : index < width := by
      obtain ⟨bound, -⟩ := List.getElem?_eq_some_iff.mp found
      exact length ▸ bound
    simp [Ty.encode, bitsOfNumber, inside]

/-- An expression is compared with the constant that has the given bits. -/
theorem constantConstraint_yields {given : List Bool} (typed : pool.WellTyped)
    (hasTy : pool.HasTy e ty) (length : given.length = ty.bitSize) :
    Build.Yields (do
        let value ← Stateful.ofExcept (ty.ofBits given)
        let constant ← Build.const ty value
        let equality ← Build.eq e constant
        return [equality]) pool fun parts after =>
      (∃ equality, parts = [equality] ∧ Equates after e ty (ty.decode given) equality) ∧
        Pins after e (fun value => Matches (given.map some) (ty.encode value)) parts := by
  have read : ty.ofBits given = .ok (ty.decode given) := if_pos length
  have admitted := Ty.admits_decode ty given
  refine Stateful.Yields.ofExcept read ?_
  refine (Build.const_yields (fun sized => sized hasTy) admitted).bind
    fun constant first toFirst isConstant => ?_
  have eqApplies : first.Applies .eq [e, constant] .bool :=
    ⟨⟨[ty, ty], .cons (toFirst.extension.hasTy hasTy) (.cons ⟨_, isConstant⟩ .nil), .eq ty⟩, nofun⟩
  refine (Build.apply_yields eqApplies).bind fun equality second toSecond isEquality => ?_
  have equates : Equates second e ty (ty.decode given) equality :=
    ⟨constant, toSecond.extension isConstant, isEquality⟩
  refine Stateful.Yields.pure ⟨⟨equality, rfl, equates⟩, ?_⟩
  refine (pins_equality equates).congr fun env value evaluated => ?_
  have lastTy := toSecond.extension.hasTy (toFirst.extension.hasTy hasTy)
  have ownAdmitted := (toSecond.wellTyped (toFirst.wellTyped typed)).admits lastTy evaluated
  rw [matches_map_some_iff]
  constructor
  · rintro rfl
    exact (Ty.encode_decode ty given length).symm
  · rintro rfl
    exact (Ty.decode_encode ty value ownAdmitted).symm

/-- If no bit is given, there is nothing to demand. -/
theorem bitConstraints_of_all_none {after : Pool} (none : bits.all Option.isNone)
    (ended : bitConstraints e ty bits pool = .ok parts after) : parts = [] := by
  unfold bitConstraints at ended
  rw [if_pos none] at ended
  cases ended
  rfl

/-- If all bits are given, the whole expression is compared with a constant. -/
theorem bitConstraints_of_all_some {given : List Bool} {after : Pool} (typed : pool.WellTyped)
    (hasTy : pool.HasTy e ty) (length : given.length = ty.bitSize) (nonempty : given ≠ [])
    (ended : bitConstraints e ty (given.map some) pool = .ok parts after) :
    ∃ equality, parts = [equality] ∧ Equates after e ty (ty.decode given) equality := by
  have some : ¬(given.map some).all Option.isNone := by
    obtain ⟨bit, rest, rfl⟩ := List.exists_cons_of_ne_nil nonempty
    simp
  have all : (given.map Option.some).mapM id = .some given := by
    rw [mapM_eq_some_iff, List.forall₂_map_left_iff, List.forall₂_same]
    exact fun _ _ => rfl
  unfold bitConstraints at ended
  simp only [if_neg some, all] at ended
  exact (Stateful.Meets.of_ok (constantConstraint_yields typed hasTy length) ended).2.1

mutual

/-- The equalities for the given bits of an expression pin down those bits. -/
theorem bitConstraints_yields {pool : Pool} {e : ExprId} (ty : Ty) {bits : List (Option Bool)}
    (typed : pool.WellTyped) (hasTy : pool.HasTy e ty) (length : bits.length = ty.bitSize) :
    Build.Yields (bitConstraints e ty bits) pool fun parts after =>
      Pins after e (fun value => Matches bits (ty.encode value)) parts := by
  unfold bitConstraints
  split
  · rename_i none
    refine Stateful.Yields.pure (.nil fun env value evaluated => matches_of_all_none ?_ none)
    exact length.trans (Ty.length_encode ty value (typed.admits hasTy evaluated)).symm
  · rename_i some
    split
    · rename_i given all
      obtain rfl : bits = given.map Option.some := by
        have each := mapM_eq_some_iff.mp all
        rw [← List.forall₂_eq_eq_eq, List.forall₂_map_right_iff]
        exact each
      exact (constantConstraint_yields typed hasTy (by simpa using length)).mono fun _ _ _ result => result.2
    · rename_i missing
      cases ty with
      | bool =>
        exfalso
        obtain ⟨bit, rfl⟩ := List.length_eq_one_iff.mp length
        cases bit <;> simp at some missing
      | uint width => exact wordConstraints_yields typed hasTy length
      | tuple fields =>
        refine (fieldConstraints_yields 0 fields rfl typed hasTy length).mono ?_
        intro parts after advances pins
        refine pins.congr fun env value evaluated => ?_
        have admitted := (advances.wellTyped typed).admits (advances.extension.hasTy hasTy) evaluated
        obtain ⟨values, rfl, -⟩ := Ty.admits_tuple_iff.mp admitted
        simp [Ty.encode]

/-- The equalities for the last components of a tuple pin down their bits. -/
theorem fieldConstraints_yields {pool : Pool} {e : ExprId} (index : Nat) (fields : List Ty)
    {allFields : List Ty} {bits : List (Option Bool)} (suffix : allFields.drop index = fields)
    (typed : pool.WellTyped) (hasTy : pool.HasTy e (.tuple allFields))
    (length : bits.length = Ty.bitSizes fields) :
    Build.Yields (fieldConstraints e index fields bits) pool fun parts after =>
      Pins after e (fun value => ∃ values, value = .tuple values ∧
        Matches bits (Ty.encodeAll fields (values.drop index))) parts := by
  cases fields with
  | nil =>
    unfold fieldConstraints
    refine Stateful.Yields.pure (.nil fun env value evaluated => ?_)
    obtain ⟨values, rfl, -⟩ := Ty.admits_tuple_iff.mp (typed.admits hasTy evaluated)
    obtain rfl := List.length_eq_zero_iff.mp length
    exact ⟨values, rfl, .nil⟩
  | cons field fields =>
    have found : allFields[index]? = some field := by
      rw [← List.head?_drop, suffix, List.head?_cons]
    have rest : allFields.drop (index + 1) = fields := by
      rw [← List.tail_drop, suffix, List.tail_cons]
    have applies : pool.Applies (.field index) [e] field :=
      ⟨⟨[.tuple allFields], .cons hasTy .nil, .field found⟩, nofun⟩
    simp only [Ty.bitSizes] at length
    unfold fieldConstraints
    refine (Build.apply_yields applies).bind fun component first toFirst isComponent => ?_
    have firstTyped := toFirst.wellTyped typed
    have firstTy := toFirst.extension.hasTy hasTy
    have enough : field.bitSize ≤ bits.length := by omega
    refine Stateful.Yields.ofExcept (front_eq_ok_iff.mpr ⟨enough, rfl⟩) ?_
    refine (bitConstraints_yields field firstTyped ⟨_, isComponent⟩
      (by rw [List.length_take]; omega)).bind fun parts second toSecond pins => ?_
    have secondTyped := toSecond.wellTyped firstTyped
    have secondTy := toSecond.extension.hasTy firstTy
    refine (fieldConstraints_yields (index + 1) fields rest secondTyped secondTy
      (by rw [List.length_drop]; omega)).bind fun others third toThird otherPins => ?_
    refine Stateful.Yields.pure ?_
    have componentTy : second.HasTy component field := ⟨_, toSecond.extension isComponent⟩
    have pins := pins.mono toThird.extension componentTy.has
    have parted : ∀ env value, third.evaluate e env = .ok value →
        ∃ values own, value = .tuple values ∧ values[index]? = some own ∧ field.admits own := by
      intro env value evaluated
      have admitted := (toThird.wellTyped secondTyped).admits (toThird.extension.hasTy secondTy) evaluated
      obtain ⟨values, rfl, each⟩ := Ty.admits_tuple_iff.mp admitted
      obtain ⟨own, ownFound, ownAdmitted⟩ := exists_getElem?_of_forall₂ each found
      exact ⟨values, own, rfl, ownFound, ownAdmitted⟩
    have ownPins : Pins third e (fun value => ∃ values own, value = .tuple values ∧
        values[index]? = some own ∧ Matches (bits.take field.bitSize) (field.encode own)) parts := by
      refine pins.through (toThird.extension (toSecond.extension isComponent)) fun env value evaluated => ?_
      obtain ⟨values, own, rfl, ownFound, -⟩ := parted env value evaluated
      exact ⟨own, Op.eval_field ownFound, by simp [ownFound]⟩
    refine (ownPins.append otherPins).congr fun env value evaluated => ?_
    obtain ⟨values, own, rfl, ownFound, ownAdmitted⟩ := parted env value evaluated
    have split : values.drop index = own :: values.drop (index + 1) := by
      obtain ⟨inside, rfl⟩ := List.getElem?_eq_some_iff.mp ownFound
      exact List.drop_eq_getElem_cons inside
    simp [ownFound, split, Ty.encodeAll, matches_append_iff, Ty.length_encode field own ownAdmitted]

end

/-- A boolean that is true exactly when all of some booleans are. -/
structure Conjoins (pool : Pool) (parts : List ExprId) (whole : ExprId) : Prop where
  isBool : pool.HasTy whole .bool
  means : ∀ env, (∀ part ∈ parts, ∃ truth, pool.evaluate part env = .ok (.bool truth)) →
    (∃ truth, pool.evaluate whole env = .ok (.bool truth)) ∧
      (pool.Accepts env whole ↔ ∀ part ∈ parts, pool.Accepts env part)
  reaches : ∀ x, pool.Reaches whole x → pool.isVariable x → ∃ part ∈ parts, pool.Reaches part x

/-- Equalities are joined, unless there are none. -/
theorem conjunction_yields (bools : ∀ part ∈ parts, pool.HasTy part .bool) :
    Build.Yields (conjunction parts) pool fun generator after =>
      (generator = none ↔ parts = []) ∧ (∀ part, parts = [part] → generator = some part) ∧
        ∀ whole ∈ generator, Conjoins after parts whole := by
  unfold conjunction
  split
  · exact Stateful.Yields.pure ⟨by simp, nofun, nofun⟩
  · rename_i part
    refine Stateful.Yields.pure ⟨by simp, fun _ sole => by rw [List.singleton_inj.mp sole], ?_⟩
    rintro _ ⟨⟩
    refine ⟨bools part List.mem_cons_self, fun env truths => ⟨truths part List.mem_cons_self, ?_⟩,
      fun x reaches _ => ⟨part, List.mem_cons_self, reaches⟩⟩
    simp
  · rename_i nonempty several
    have applies : pool.Applies .and parts .bool :=
      Rules.applies_junction (.inl rfl) nonempty bools nofun
    refine (Build.apply_yields applies).bind fun whole after advances stored => ?_
    refine Stateful.Yields.pure ⟨iff_of_false nofun nonempty, fun part sole => (several part sole).elim, ?_⟩
    rintro _ ⟨⟩
    refine ⟨⟨_, stored⟩, fun env truths => ⟨?_, Pool.accepts_and stored⟩, fun x reaches isVariable => ?_⟩
    · obtain ⟨values, each⟩ := exists_forall₂ truths
      exact ⟨_, (Pool.evaluate_apply stored).mpr
        ⟨values.map .bool, List.forall₂_map_right_iff.mpr each, Op.eval_and values⟩⟩
    · have differ : x ≠ whole := fun same => not_isVariable_of_apply stored (same ▸ isVariable)
      exact reaches.exists_operand stored differ

end Solve

end Clausal
