import Mathlib
import Clausal.Proofs.Typing
import Clausal.Proofs.Gates

/-!
# Lowering one operator

The literals of an operator are made from the literals of its operands. In every
satisfying assignment the value that is read from them is the value of the operator
on the values that are read from the operands. Operands are rows of literals, one
for every bit of their type.
-/

namespace Clausal

/-- The value of a type that is read from literals. -/
def Assignment.value (truth : Assignment) (ty : Ty) (lits : Array Lit) : Value :=
  ty.decode (lits.toList.map (Lit.holds truth))

/-- Literals of a session, one for every bit of a type. -/
structure Session.Row (session : Session) (lits : Array Lit) (ty : Ty) : Prop where
  ranged : ∀ lit ∈ lits, lit.var ≤ session.numVars
  size_eq : lits.size = ty.bitSize

theorem Session.Row.later {before after : Session} {lits : Array Lit} {ty : Ty}
    (row : before.Row lits ty) (grown : before.numVars ≤ after.numVars) : after.Row lits ty :=
  ⟨fun lit member => (row.ranged lit member).trans grown, row.size_eq⟩

namespace Assignment

variable {truth : Assignment} {lits others : Array Lit} {ty : Ty}

@[simp] theorem value_bool (lit : Lit) : truth.value .bool #[lit] = .bool (lit.holds truth) := rfl

/-- The bits of the value are the truth values of the literals. -/
theorem encode_value (size : lits.size = ty.bitSize) :
    ty.encode (truth.value ty lits) = lits.toList.map (Lit.holds truth) :=
  Ty.encode_decode ty _ (by simpa using size)

theorem value_eq_iff (size : lits.size = ty.bitSize) (otherSize : others.size = ty.bitSize) :
    truth.value ty lits = truth.value ty others ↔
      lits.toList.map (Lit.holds truth) = others.toList.map (Lit.holds truth) := by
  constructor
  · intro same
    rw [← encode_value size, ← encode_value otherSize, same]
  · exact fun same => congrArg ty.decode same

end Assignment

namespace Lower

attribute [local irreducible] Lit.ofVar

section Growth

instance (pool : Pool) (e : ExprId) (lits : Array Lit) : Grows (sole pool e lits) := by
  unfold sole
  split <;> infer_instance

instance (pool : Pool) (operands : List (ExprId × Array Lit)) : Grows (soles pool operands) := by
  have each : ∀ operand : ExprId × Array Lit,
      Grows (match operand with | (e, lits) => sole pool e lits) := fun operand =>
    inferInstanceAs (Grows (sole pool operand.1 operand.2))
  unfold soles
  infer_instance

instance (pool : Pool) (op : Op) (operands : List (ExprId × Array Lit)) :
    Grows (combine pool op operands) := by
  unfold combine
  split <;> infer_instance

end Growth

section Rows

variable {session : Session} {operands : List (ExprId × Array Lit)} {types : List Ty}

/-- The values that are read from the operands. -/
def operandValues (truth : Assignment) (types : List Ty) (operands : List (ExprId × Array Lit)) :
    List Value :=
  List.zipWith (fun ty operand => truth.value ty operand.2) types operands

theorem sole_singleton (pool : Pool) (e : ExprId) (lit : Lit) : sole pool e #[lit] = pure lit := rfl

theorem exists_sole {lits : Array Lit} (row : session.Row lits .bool) :
    ∃ lit, lits = #[lit] ∧ lit.var ≤ session.numVars := by
  obtain ⟨lit, rfl⟩ := Array.size_eq_one_iff.mp row.size_eq
  exact ⟨lit, rfl, row.ranged lit (by simp)⟩

/-- Boolean operands have one literal each. -/
theorem exists_soles (pool : Pool)
    (rows : List.Forall₂ (fun ty operand => session.Row operand.2 ty) types operands)
    (bools : ∀ ty ∈ types, ty = .bool) :
    ∃ inputs : List Lit, soles pool operands = pure inputs ∧
      operands.map Prod.snd = inputs.map (fun lit => #[lit]) ∧
      (∀ lit ∈ inputs, lit.var ≤ session.numVars) ∧
        ∀ truth, operandValues truth types operands =
          (inputs.map (Lit.holds truth)).map .bool := by
  induction rows with
  | nil => exact ⟨[], rfl, rfl, nofun, fun _ => rfl⟩
  | @cons ty operand types operands row _ inductionHypothesis =>
    obtain ⟨e, lits⟩ := operand
    obtain ⟨inputs, found, same, ranged, values⟩ :=
      inductionHypothesis fun other member => bools other (List.mem_cons_of_mem ty member)
    obtain rfl := bools ty List.mem_cons_self
    obtain ⟨lit, rfl, litRanged⟩ := exists_sole row
    refine ⟨lit :: inputs, ?_, ?_, ?_, fun truth => ?_⟩
    · unfold soles at found ⊢
      rw [List.mapM_cons, found]
      rfl
    · simp [same]
    · exact List.forall_mem_cons.mpr ⟨litRanged, ranged⟩
    · simpa [operandValues] using values truth

/-- The rows of several operands behind each other. -/
theorem toList_foldl_append (operands : List (ExprId × Array Lit)) (lits : Array Lit) :
    (operands.foldl (fun lits operand => lits ++ operand.2) lits).toList =
      lits.toList ++ operands.flatMap fun operand => operand.2.toList := by
  induction operands generalizing lits with
  | nil => simp
  | cons operand operands inductionHypothesis => simp [inductionHypothesis]

theorem row_append
    (rows : List.Forall₂ (fun ty operand => session.Row operand.2 ty) types operands) :
    session.Row (operands.foldl (fun lits operand => lits ++ operand.2) #[]) (.tuple types) := by
  constructor
  · intro lit member
    rw [← Array.mem_toList_iff, toList_foldl_append] at member
    obtain ⟨operand, operandMember, litMember⟩ := List.mem_flatMap.mp member
    obtain ⟨ty, -, row⟩ := exists_of_forall₂_of_mem rows.flip operandMember
    exact row.ranged lit (by simpa using litMember)
  · rw [← Array.length_toList, toList_foldl_append]
    induction rows with
    | nil => rfl
    | cons row _ inductionHypothesis =>
      simp only [List.nil_append, List.flatMap_cons, List.length_append, Ty.bitSize, Ty.bitSizes,
        Array.length_toList, row.size_eq] at inductionHypothesis ⊢
      rw [inductionHypothesis]

/-- A tuple is read component by component. -/
theorem value_append (truth : Assignment)
    (rows : List.Forall₂ (fun ty operand => session.Row operand.2 ty) types operands) :
    truth.value (.tuple types) (operands.foldl (fun lits operand => lits ++ operand.2) #[]) =
      .tuple (operandValues truth types operands) := by
  unfold Assignment.value operandValues
  rw [toList_foldl_append, Ty.decode]
  congr 1
  induction rows with
  | nil => rfl
  | @cons ty operand types operands row _ inductionHypothesis =>
    have size : (operand.2.toList.map (Lit.holds truth)).length = ty.bitSize := by
      simpa using row.size_eq
    simp only [List.nil_append, List.flatMap_cons, List.map_append] at inductionHypothesis ⊢
    rw [Ty.decodeAll, ← size, List.drop_left, List.take_left, inductionHypothesis]
    rfl

/-- Boolean rows behind each other have the bits of a word. -/
theorem value_bits {inputs : List Lit} (truth : Assignment)
    (same : operands.map Prod.snd = inputs.map (fun lit => #[lit])) :
    truth.value (.uint inputs.length) (operands.foldl (fun lits operand => lits ++ operand.2) #[]) =
      .uint (numberOfBits (inputs.map (Lit.holds truth))) := by
  have joined : operands.flatMap (fun operand => operand.2.toList) = inputs := by
    have mapped : (operands.map Prod.snd).flatMap Array.toList = inputs := by
      rw [same]
      simp [List.flatMap_map]
    rwa [List.flatMap_map] at mapped
  unfold Assignment.value
  rw [toList_foldl_append, List.nil_append, joined, Ty.decode, List.take_of_length_le (by simp)]

/-- The bit at a position is read from the literal there. -/
theorem testBit_value (truth : Assignment) {lits : Array Lit} {width index : Nat} {lit : Lit}
    (size : lits.size = width) (found : lits[index]? = some lit) :
    ∃ number, truth.value (.uint width) lits = .uint number ∧
      number.testBit index = lit.holds truth := by
  refine ⟨_, rfl, ?_⟩
  subst size
  rw [testBit_numberOfBits, List.take_of_length_le (by simp), List.getD_eq_getElem?_getD,
    List.getElem?_map, Array.getElem?_toList, found]
  rfl

/-- A component is read from its part of the row. -/
theorem component_eq {fields : List Ty} {index : Nat} {ty : Ty} {lits : Array Lit}
    (row : session.Row lits (.tuple fields)) (found : fields[index]? = some ty) :
    ∃ part, component (.tuple fields) index lits = .ok part ∧ session.Row part ty ∧
      ∀ truth : Assignment, ∃ values, truth.value (.tuple fields) lits = .tuple values ∧
        values[index]? = some (truth.value ty part) := by
  set offset := Ty.bitSizes (fields.take index)
  set part := lits.extract offset (offset + ty.bitSize)
  have partList : part.toList = (lits.toList.drop offset).take ty.bitSize := by
    simp [part, List.extract]
  have slices : ∀ truth : Assignment, ∃ values value, truth.value (.tuple fields) lits = .tuple values ∧
      values[index]? = some value ∧ ty.admits value ∧
        part.toList.map (Lit.holds truth) = ty.encode value := by
    intro truth
    set bits := lits.toList.map (Lit.holds truth)
    have size : bits.length = Ty.bitSizes fields := by simpa [bits, Ty.bitSize] using row.size_eq
    have admitted := Ty.admitsAll_decodeAll fields bits
    obtain ⟨value, valueFound, fits⟩ := exists_getElem?_of_forall₂ (Ty.admitsAll_iff.mp admitted) found
    refine ⟨_, value, rfl, valueFound, fits, ?_⟩
    rw [← Ty.encodeAll_slice admitted found valueFound, Ty.encodeAll_decodeAll fields bits size,
      partList, List.map_take, List.map_drop]
  have inside : offset + ty.bitSize ≤ lits.size := by
    rw [row.size_eq]
    exact Ty.bitSizes_take_add_le found
  have isPart : component (.tuple fields) index lits = .ok part := by
    simp only [component, Ty.fieldOffset?_tuple found, Ty.fields?]
    exact bind_eq_ok_iff.mpr ⟨ty, entry_eq_ok_iff.mpr found, slice_eq_ok_iff.mpr ⟨inside, rfl⟩⟩
  refine ⟨part, isPart, ⟨?_, ?_⟩, fun truth => ?_⟩
  · intro lit member
    rw [← Array.mem_toList_iff, partList] at member
    exact row.ranged lit (Array.mem_toList_iff.mp (List.mem_of_mem_drop (List.mem_of_mem_take member)))
  · obtain ⟨values, value, -, -, fits, bits⟩ := slices fun _ => false
    have length := congrArg List.length bits
    rwa [Ty.length_encode ty value fits, List.length_map, Array.length_toList] at length
  · obtain ⟨values, value, read, valueFound, fits, bits⟩ := slices truth
    refine ⟨values, read, ?_⟩
    rw [valueFound, Assignment.value, bits, Ty.decode_encode ty value fits]

theorem bitSizes_of_bools (bools : ∀ ty ∈ types, ty = .bool) : Ty.bitSizes types = types.length := by
  induction types with
  | nil => rfl
  | cons ty types inductionHypothesis =>
    rw [Ty.bitSizes, bools ty List.mem_cons_self, List.length_cons, Nat.add_comm,
      inductionHypothesis fun other member => bools other (List.mem_cons_of_mem ty member)]
    rfl

/-- Rows of one length are the same if they agree everywhere. -/
theorem all_agree_iff (truth : Assignment) {left right : List Lit}
    (length : left.length = right.length) :
    ((left.zip right).map fun pair => pair.1.holds truth == pair.2.holds truth).all id ↔
      left.map (Lit.holds truth) = right.map (Lit.holds truth) := by
  induction left generalizing right with
  | nil => simp [List.length_eq_zero_iff.mp length.symm]
  | cons lit left inductionHypothesis =>
    cases right with
    | nil => simp at length
    | cons other right =>
      have rest := inductionHypothesis (by simpa using length)
      simp only [List.zip_cons_cons, List.map_cons, List.all_cons, id, Bool.and_eq_true, beq_iff_eq,
        List.cons.injEq, rest]

end Rows

section Operators

variable {pool : Pool} {session : Session} {operands : List (ExprId × Array Lit)} {types : List Ty}
  {op : Op} {ty : Ty}

/-- Literals have the value of an operator on the values of its operands. -/
def Computes (op : Op) (types : List Ty) (operands : List (ExprId × Array Lit)) (ty : Ty)
    (lits : Array Lit) (session : Session) : Prop :=
  session.Row lits ty ∧ ∀ truth, session.Satisfied truth →
    op.eval (operandValues truth types operands) = .ok (truth.value ty lits)

/-- A gate with boolean operands as its inputs computes an operator. -/
theorem gate_computes {inputs : List Lit} {function : List Bool → Bool} {out : Lit}
    (values : ∀ truth, operandValues truth types operands = (inputs.map (Lit.holds truth)).map .bool)
    (tracks : session.Tracks [out] fun truth => [function (inputs.map (Lit.holds truth))])
    (evaluates : ∀ truths : List Bool, op.eval (truths.map .bool) = .ok (.bool (function truths))) :
    Computes op types operands .bool #[out] session := by
  refine ⟨⟨by simpa using tracks.ranged, rfl⟩, fun truth satisfied => ?_⟩
  have means : out.holds truth = function (inputs.map (Lit.holds truth)) := by
    simpa using tracks.means truth satisfied
  rw [values, evaluates, Assignment.value_bool, means]

theorem combine_or_succeeds (isOr : op = .or ∨ op = .clause) (closed : session.Closed)
    (bools : ∀ ty ∈ types, ty = .bool)
    (rows : List.Forall₂ (fun ty operand => session.Row operand.2 ty) types operands) :
    Succeeds (combine pool op operands) session fun lits after =>
      session.Defines after ∧ Computes op types operands .bool lits after := by
  obtain ⟨inputs, found, -, ranged, values⟩ := exists_soles pool rows bools
  have evaluates : ∀ truths : List Bool, op.eval (truths.map .bool) = .ok (.bool (truths.any id)) := by
    rcases isOr with rfl | rfl
    · exact Op.eval_or
    · exact Op.eval_clause
  have unfolded : combine pool op operands = (do
      let inputs ← soles pool operands
      let out ← orGate inputs
      return #[out]) := by
    rcases isOr with rfl | rfl <;> rfl
  rw [unfolded, found, pure_bind]
  refine (orGate_succeeds closed ranged).bind ?_
  rintro out after _ ⟨defines, tracks⟩
  exact Runs.pure fun _ => ⟨defines, gate_computes values tracks evaluates⟩

theorem combine_eq_succeeds {left right : ExprId × Array Lit} (closed : session.Closed)
    (live : session.Live) (leftRow : session.Row left.2 ty) (rightRow : session.Row right.2 ty) :
    Succeeds (combine pool .eq [left, right]) session fun lits after =>
      session.Defines after ∧ Computes .eq [ty, ty] [left, right] .bool lits after := by
  refine (agreements_succeeds closed live leftRow.ranged rightRow.ranged).bind ?_
  rintro outs middle _ ⟨defines, agree⟩
  refine (andGate_succeeds (defines.closed closed) agree.ranged).bind ?_
  rintro out after _ ⟨further, tracks⟩
  refine Runs.pure fun _ => ⟨IsTrans.trans _ _ _ defines further, ⟨by simpa using tracks.ranged, rfl⟩,
    fun truth satisfied => ?_⟩
  have means : out.holds truth = (outs.map (Lit.holds truth)).all id := by
    simpa using tracks.means truth satisfied
  have same : (decide (truth.value ty left.2 = truth.value ty right.2)) = out.holds truth := by
    rw [means, (agree.later further).means truth satisfied, Bool.eq_iff_iff, decide_eq_true_iff,
      Assignment.value_eq_iff leftRow.size_eq rightRow.size_eq, all_agree_iff]
    simp [leftRow.size_eq, rightRow.size_eq]
  simp [operandValues, same]

/-- The literals of an operator on lowered operands compute it. -/
theorem combine_succeeds (closed : session.Closed) (live : session.Live)
    (typed : op.Types types ty) (supported : supports op)
    (hasTys : List.Forall₂ (fun ty operand => pool.HasTy operand.1 ty) types operands)
    (rows : List.Forall₂ (fun ty operand => session.Row operand.2 ty) types operands) :
    Succeeds (combine pool op operands) session fun lits after =>
      session.Defines after ∧ Computes op types operands ty lits after := by
  cases typed with
  | implies | ite scalar | add positive left right | mul positive left right => cases supported
  | or nonempty bools => exact combine_or_succeeds (.inl rfl) closed bools rows
  | clause nonempty bools => exact combine_or_succeeds (.inr rfl) closed bools rows
  | not =>
    obtain ⟨⟨e, lits⟩, row, rfl⟩ := forall₂_one.mp rows
    obtain ⟨lit, rfl, ranged⟩ := exists_sole row
    simp only [combine, sole_singleton, neg_eq_pure live ranged, pure_bind]
    refine Runs.pure fun _ => ⟨refl session, ⟨by simpa using ranged, rfl⟩, fun truth _ => ?_⟩
    simp [operandValues]
  | and nonempty bools =>
    obtain ⟨inputs, found, -, ranged, values⟩ := exists_soles pool rows bools
    unfold combine
    rw [found, pure_bind]
    refine (andGate_succeeds closed ranged).bind ?_
    rintro out after _ ⟨defines, tracks⟩
    exact Runs.pure fun _ => ⟨defines, gate_computes values tracks Op.eval_and⟩
  | xor =>
    obtain ⟨⟨e, lits⟩, ⟨f, others⟩, row, otherRow, rfl⟩ := forall₂_two.mp rows
    obtain ⟨a, rfl, aRanged⟩ := exists_sole row
    obtain ⟨b, rfl, bRanged⟩ := exists_sole otherRow
    simp only [combine, sole_singleton, pure_bind]
    refine (xorGate_succeeds closed aRanged bRanged).bind ?_
    rintro out after _ ⟨defines, tracks⟩
    refine Runs.pure fun _ => ⟨defines, ⟨by simpa using tracks.ranged, rfl⟩, fun truth satisfied => ?_⟩
    have means : out.holds truth = (a.holds truth != b.holds truth) := by
      simpa using tracks.means truth satisfied
    simp [operandValues, means]
  | eq operandTy =>
    obtain ⟨left, right, leftRow, rightRow, rfl⟩ := forall₂_two.mp rows
    exact combine_eq_succeeds closed live leftRow rightRow
  | @bit index width inside =>
    obtain ⟨⟨e, lits⟩, row, rfl⟩ := forall₂_one.mp rows
    have size : lits.size = width := row.size_eq
    obtain ⟨lit, found⟩ : ∃ lit, lits[index]? = some lit := ⟨_, Array.getElem?_eq_getElem (size ▸ inside)⟩
    have bitFound : bitAt lits index = .ok lit := by simp [bitAt, found]
    refine Runs.ofExcept bitFound (Runs.pure fun _ => ⟨refl session, ⟨?_, rfl⟩, fun truth _ => ?_⟩)
    · simpa using row.ranged lit (Array.mem_of_getElem? found)
    · obtain ⟨number, value, bit⟩ := testBit_value truth size found
      simp [operandValues, value, bit]
  | bits nonempty bools =>
    obtain ⟨inputs, -, same, -, values⟩ := exists_soles pool rows bools
    have length : types.length = inputs.length := by
      simpa [← rows.length_eq] using congrArg List.length same
    have row := row_append rows
    have size : Ty.bitSizes types = types.length := bitSizes_of_bools bools
    refine Runs.pure fun _ => ⟨refl session, ⟨row.ranged, row.size_eq.trans size⟩, fun truth _ => ?_⟩
    rw [values, Op.eval_bits, length, value_bits truth same]
  | tuple nonempty =>
    refine Runs.pure fun _ => ⟨refl session, row_append rows, fun truth _ => ?_⟩
    rw [value_append truth rows, Op.eval_tuple]
  | @field fields index _ found =>
    obtain ⟨⟨e, lits⟩, row, rfl⟩ := forall₂_one.mp rows
    obtain ⟨_, hasTy, ⟨⟩⟩ := forall₂_one.mp hasTys
    obtain ⟨part, isPart, partRow, reads⟩ := component_eq row found
    refine Runs.ofExcept (Pool.ty_eq_ok_iff.mpr hasTy) ?_
    rw [isPart]
    refine Runs.pure fun _ => ⟨refl session, partRow, fun truth _ => ?_⟩
    obtain ⟨values, read, valueFound⟩ := reads truth
    simp only [operandValues, List.zipWith_cons_cons, List.zipWith_nil_right, read]
    exact Op.eval_field valueFound

end Operators

end Lower

end Clausal
