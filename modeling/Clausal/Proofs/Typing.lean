import Mathlib
import Clausal.Pool.Build
import Clausal.Proofs.Codec
import Clausal.Proofs.Outcome

/-!
# Typing of operators

`Op.Types` is the typing judgement of the operators: which operand types an
operator takes, and which type its result has. `Op.types_iff` says that the
checks made when an application is built decide this judgement, and
`Op.Types.exists_eval` that a typed operator has a value on values of the operand
types, which belongs to the result type.
-/

namespace Clausal

namespace Ty

theorem admits_bool_iff {value : Value} : bool.admits value ↔ ∃ truth, value = .bool truth := by
  cases value <;> simp [admits]

theorem admits_uint_iff {width : Nat} {value : Value} :
    (uint width).admits value ↔ ∃ number, value = .uint number ∧ number < 2 ^ width := by
  cases value <;> simp [admits, bitLength_le_iff]

theorem admits_tuple_iff {fields : List Ty} {value : Value} :
    (tuple fields).admits value ↔
      ∃ values, value = .tuple values ∧
        List.Forall₂ (fun field value => field.admits value) fields values := by
  cases value <;> simp [admits, admitsAll_iff]

/-- Values of boolean types are truth values. -/
theorem exists_truths_of_admits {types : List Ty} {values : List Value}
    (admitted : List.Forall₂ (fun ty value => ty.admits value) types values)
    (bools : ∀ ty ∈ types, ty = .bool) :
    ∃ truths : List Bool, values = truths.map .bool ∧ truths.length = types.length := by
  induction admitted with
  | nil => exact ⟨[], rfl, rfl⟩
  | @cons ty value types values first _ inductionHypothesis =>
    obtain ⟨truths, rfl, length⟩ :=
      inductionHypothesis fun other member => bools other (List.mem_cons_of_mem ty member)
    rw [bools ty List.mem_cons_self, admits_bool_iff] at first
    obtain ⟨truth, rfl⟩ := first
    exact ⟨truth :: truths, rfl, by simp [length]⟩

end Ty

/-- A conjunction of truth values looks at all that matter. -/
@[simp] theorem allTrue_map_bool (truths : List Bool) :
    allTrue (truths.map .bool) = .ok (truths.all id) := by
  induction truths with
  | nil => rfl
  | cons truth truths inductionHypothesis => cases truth <;> simp [allTrue, inductionHypothesis]

/-- A disjunction of truth values looks at all that matter. -/
@[simp] theorem anyTrue_map_bool (truths : List Bool) :
    anyTrue (truths.map .bool) = .ok (truths.any id) := by
  induction truths with
  | nil => rfl
  | cons truth truths inductionHypothesis => cases truth <;> simp [anyTrue, inductionHypothesis]

@[simp] theorem mapM_truthOf_map_bool (truths : List Bool) :
    (truths.map Value.bool).mapM truthOf = .ok truths := by
  rw [mapM_eq_ok_iff, List.forall₂_map_left_iff, List.forall₂_same]
  intro truth _
  rfl

namespace Op

section Values

@[simp] theorem eval_not (a : Bool) : eval .not [.bool a] = .ok (.bool !a) := rfl

@[simp] theorem eval_and (truths : List Bool) :
    eval .and (truths.map .bool) = .ok (.bool (truths.all id)) := by
  simp [eval, bind, Except.bind, pure, Except.pure]

@[simp] theorem eval_or (truths : List Bool) :
    eval .or (truths.map .bool) = .ok (.bool (truths.any id)) := by
  simp [eval, bind, Except.bind, pure, Except.pure]

@[simp] theorem eval_clause (truths : List Bool) :
    eval .clause (truths.map .bool) = .ok (.bool (truths.any id)) := by
  simp [eval, bind, Except.bind, pure, Except.pure]

@[simp] theorem eval_xor (a b : Bool) :
    eval .xor [.bool a, .bool b] = .ok (.bool (a != b)) := rfl

@[simp] theorem eval_implies (a b : Bool) :
    eval .implies [.bool a, .bool b] = .ok (.bool (!a || b)) := by
  cases a <;> rfl

@[simp] theorem eval_ite (condition : Bool) (whenTrue whenFalse : Value) :
    eval .ite [.bool condition, whenTrue, whenFalse] =
      .ok (if condition then whenTrue else whenFalse) := by
  cases condition <;> rfl

@[simp] theorem eval_eq (a b : Value) : eval .eq [a, b] = .ok (.bool (decide (a = b))) := rfl

@[simp] theorem eval_bit (index number : Nat) :
    eval (.bit index) [.uint number] = .ok (.bool (number.testBit index)) := rfl

@[simp] theorem eval_bits (truths : List Bool) :
    eval .bits (truths.map .bool) = .ok (.uint (numberOfBits truths)) := by
  unfold eval
  rw [mapM_truthOf_map_bool]
  rfl

@[simp] theorem eval_add (width a b : Nat) :
    eval (.add width) [.uint a, .uint b] = .ok (.uint ((a + b) % 2 ^ width)) := by
  rw [← truncate_eq]
  rfl

@[simp] theorem eval_mul (width a b : Nat) :
    eval (.mul width) [.uint a, .uint b] = .ok (.uint ((a * b) % 2 ^ width)) := by
  rw [← truncate_eq]
  rfl

@[simp] theorem eval_tuple (values : List Value) : eval .tuple values = .ok (.tuple values) := rfl

/-- The value of a component that is there. -/
theorem eval_field {index : Nat} {values : List Value} {value : Value}
    (found : values[index]? = some value) : eval (.field index) [.tuple values] = .ok value := by
  simp [eval, entry, componentAt, found, bind, Except.bind]

end Values

/-- The operator takes operands of the given types, and its result has the given
type. -/
inductive Types : Op → List Ty → Ty → Prop where
  | not : Types .not [.bool] .bool
  | and {types : List Ty} (nonempty : types ≠ []) (bools : ∀ ty ∈ types, ty = .bool) :
      Types .and types .bool
  | or {types : List Ty} (nonempty : types ≠ []) (bools : ∀ ty ∈ types, ty = .bool) :
      Types .or types .bool
  | clause {types : List Ty} (nonempty : types ≠ []) (bools : ∀ ty ∈ types, ty = .bool) :
      Types .clause types .bool
  | xor : Types .xor [.bool, .bool] .bool
  | implies : Types .implies [.bool, .bool] .bool
  | ite {ty : Ty} (scalar : ty.isBool ∨ ty.isUint) : Types .ite [.bool, ty, ty] ty
  | eq (ty : Ty) : Types .eq [ty, ty] .bool
  | bit {index width : Nat} (inside : index < width) : Types (.bit index) [.uint width] .bool
  | bits {types : List Ty} (nonempty : types ≠ []) (bools : ∀ ty ∈ types, ty = .bool) :
      Types .bits types (.uint types.length)
  | add {width : Nat} (positive : 0 < width) (left right : Nat) :
      Types (.add width) [.uint left, .uint right] (.uint width)
  | mul {width : Nat} (positive : 0 < width) (left right : Nat) :
      Types (.mul width) [.uint left, .uint right] (.uint width)
  | tuple {types : List Ty} (nonempty : types ≠ []) : Types .tuple types (.tuple types)
  | field {fields : List Ty} {index : Nat} {ty : Ty} (found : fields[index]? = some ty) :
      Types (.field index) [.tuple fields] ty

/-- Operands of positive widths give a result of positive width. -/
theorem Types.sized {op : Op} {types : List Ty} {ty : Ty} (typed : op.Types types ty)
    (operands : ∀ operand ∈ types, operand.Sized) : ty.Sized := by
  cases typed with
  | ite scalar => exact operands ty (by simp)
  | bits nonempty bools => exact List.length_pos_iff.mpr nonempty
  | add positive left right => exact positive
  | mul positive left right => exact positive
  | tuple nonempty => exact Ty.sizedAll_iff.mpr operands
  | @field fields index ty found =>
    have tupleSized := operands (.tuple fields) (by simp)
    exact Ty.sizedAll_iff.mp tupleSized ty (List.mem_of_getElem? found)
  | _ => trivial

/-- A typed operator has a value on values of the operand types, and the value
belongs to the result type. -/
theorem Types.exists_eval {op : Op} {types : List Ty} {ty : Ty} {values : List Value}
    (typed : op.Types types ty)
    (admitted : List.Forall₂ (fun ty value => ty.admits value) types values) :
    ∃ value, op.eval values = .ok value ∧ ty.admits value := by
  cases typed with
  | not =>
    obtain ⟨truths, rfl, length⟩ := Ty.exists_truths_of_admits admitted (by simp)
    obtain ⟨a, rfl⟩ := List.length_eq_one_iff.mp length
    exact ⟨_, eval_not a, rfl⟩
  | and nonempty bools =>
    obtain ⟨truths, rfl, -⟩ := Ty.exists_truths_of_admits admitted bools
    exact ⟨_, eval_and truths, rfl⟩
  | or nonempty bools =>
    obtain ⟨truths, rfl, -⟩ := Ty.exists_truths_of_admits admitted bools
    exact ⟨_, eval_or truths, rfl⟩
  | clause nonempty bools =>
    obtain ⟨truths, rfl, -⟩ := Ty.exists_truths_of_admits admitted bools
    exact ⟨_, eval_clause truths, rfl⟩
  | xor =>
    obtain ⟨truths, rfl, length⟩ := Ty.exists_truths_of_admits admitted (by simp)
    obtain ⟨a, b, rfl⟩ := List.length_eq_two.mp length
    exact ⟨_, eval_xor a b, rfl⟩
  | implies =>
    obtain ⟨truths, rfl, length⟩ := Ty.exists_truths_of_admits admitted (by simp)
    obtain ⟨a, b, rfl⟩ := List.length_eq_two.mp length
    exact ⟨_, eval_implies a b, rfl⟩
  | ite scalar =>
    simp only [List.forall₂_cons_left_iff, List.forall₂_nil_left_iff] at admitted
    obtain ⟨_, _, condition, ⟨t, _, tAdmitted, ⟨e, _, eAdmitted, rfl, rfl⟩, rfl⟩, rfl⟩ := admitted
    obtain ⟨c, rfl⟩ := Ty.admits_bool_iff.mp condition
    refine ⟨_, eval_ite c t e, ?_⟩
    cases c
    · exact eAdmitted
    · exact tAdmitted
  | eq ty =>
    simp only [List.forall₂_cons_left_iff, List.forall₂_nil_left_iff] at admitted
    obtain ⟨a, _, _, ⟨b, _, _, rfl, rfl⟩, rfl⟩ := admitted
    exact ⟨_, eval_eq a b, rfl⟩
  | bit inside =>
    simp only [List.forall₂_cons_left_iff, List.forall₂_nil_left_iff] at admitted
    obtain ⟨_, _, word, rfl, rfl⟩ := admitted
    obtain ⟨number, rfl, _⟩ := Ty.admits_uint_iff.mp word
    exact ⟨_, eval_bit _ number, rfl⟩
  | bits nonempty bools =>
    obtain ⟨truths, rfl, length⟩ := Ty.exists_truths_of_admits admitted bools
    refine ⟨_, eval_bits truths, Ty.admits_uint_iff.mpr ⟨_, rfl, ?_⟩⟩
    rw [← length]
    exact numberOfBits_lt truths
  | add positive left right =>
    simp only [List.forall₂_cons_left_iff, List.forall₂_nil_left_iff] at admitted
    obtain ⟨_, _, first, ⟨_, _, second, rfl, rfl⟩, rfl⟩ := admitted
    obtain ⟨a, rfl, _⟩ := Ty.admits_uint_iff.mp first
    obtain ⟨b, rfl, _⟩ := Ty.admits_uint_iff.mp second
    exact ⟨_, eval_add _ a b, Ty.admits_uint_iff.mpr ⟨_, rfl, Nat.mod_lt _ (by positivity)⟩⟩
  | mul positive left right =>
    simp only [List.forall₂_cons_left_iff, List.forall₂_nil_left_iff] at admitted
    obtain ⟨_, _, first, ⟨_, _, second, rfl, rfl⟩, rfl⟩ := admitted
    obtain ⟨a, rfl, _⟩ := Ty.admits_uint_iff.mp first
    obtain ⟨b, rfl, _⟩ := Ty.admits_uint_iff.mp second
    exact ⟨_, eval_mul _ a b, Ty.admits_uint_iff.mpr ⟨_, rfl, Nat.mod_lt _ (by positivity)⟩⟩
  | tuple nonempty => exact ⟨_, eval_tuple values, Ty.admits_tuple_iff.mpr ⟨values, rfl, admitted⟩⟩
  | @field fields index ty found =>
    simp only [List.forall₂_cons_left_iff, List.forall₂_nil_left_iff] at admitted
    obtain ⟨_, _, whole, rfl, rfl⟩ := admitted
    obtain ⟨components, rfl, each⟩ := Ty.admits_tuple_iff.mp whole
    obtain ⟨inside, rfl⟩ := List.getElem?_eq_some_iff.mp found
    have inside' : index < components.length := each.length_eq ▸ inside
    exact ⟨components[index], eval_field (List.getElem?_eq_getElem inside'),
      each.get inside inside'⟩

/-- A check of all types passes exactly when every type passes the test. -/
theorem requireAll_eq_ok_iff {op : Op} {expected : Expectation} {test : Ty → Bool}
    {position : Nat} {types : List Ty} :
    op.requireAll expected test position types = .ok () ↔ ∀ ty ∈ types, test ty := by
  induction types generalizing position with
  | nil => simp [requireAll]
  | cons ty types inductionHypothesis =>
    unfold requireAll
    split
    · rename_i passes
      simp [inductionHypothesis, passes]
    · rename_i fails
      simp [fails]

theorem isBool_iff {ty : Ty} : ty.isBool ↔ ty = .bool := by
  cases ty <;> simp [Ty.isBool]

theorem isUint_iff {ty : Ty} : ty.isUint ↔ ∃ width, ty = .uint width := by
  cases ty <;> simp [Ty.isUint]

theorem uint?_eq_ok_iff {width : Nat} {ty : Ty} :
    Ty.uint? width = .ok ty ↔ 0 < width ∧ ty = .uint width := by
  unfold Ty.uint?
  split
  · rename_i zero
    simp [zero]
  · rename_i nonzero
    simp only [Except.ok.injEq, eq_comm (a := Ty.uint width)]
    exact (and_iff_right (Nat.pos_of_ne_zero nonzero)).symm

/-- What the typing judgement allows passes the checks of an operator. -/
theorem Types.accepted {op : Op} {types : List Ty} {ty : Ty} (typed : op.Types types ty) :
    op.arity.accepts types.length ∧ op.checkTypes types = .ok () ∧ op.resultTy types = .ok ty := by
  cases typed with
  | not | xor | implies => exact ⟨rfl, rfl, rfl⟩
  | and nonempty bools | or nonempty bools | clause nonempty bools =>
    refine ⟨?_, ?_, rfl⟩
    · simpa [arity, Arity.accepts, Nat.one_le_iff_ne_zero] using nonempty
    · simpa [checkTypes, requireAll_eq_ok_iff, isBool_iff] using bools
  | ite scalar =>
    refine ⟨rfl, ?_, rfl⟩
    rcases scalar with isBool | isUint
    · obtain rfl := isBool_iff.mp isBool
      rfl
    · obtain ⟨width, rfl⟩ := isUint_iff.mp isUint
      simp [checkTypes, Ty.isBool, Ty.isUint]
  | eq ty => exact ⟨rfl, by simp [checkTypes], rfl⟩
  | bit inside => exact ⟨rfl, by simp [checkTypes, Ty.width?, inside], rfl⟩
  | bits nonempty bools =>
    refine ⟨?_, ?_, uint?_eq_ok_iff.mpr ⟨List.length_pos_iff.mpr nonempty, rfl⟩⟩
    · simpa [arity, Arity.accepts, Nat.one_le_iff_ne_zero] using nonempty
    · simpa [checkTypes, requireAll_eq_ok_iff, isBool_iff] using bools
  | add positive left right | mul positive left right =>
    refine ⟨rfl, ?_, uint?_eq_ok_iff.mpr ⟨positive, rfl⟩⟩
    simp [checkTypes, positive.ne', requireAll, Ty.isUint]
  | tuple nonempty =>
    exact ⟨by simpa [arity, Arity.accepts, Nat.one_le_iff_ne_zero] using nonempty, rfl, rfl⟩
  | field found =>
    obtain ⟨inside, -⟩ := List.getElem?_eq_some_iff.mp found
    exact ⟨rfl, by simp [checkTypes, Ty.fields?, inside],
      by simp [resultTy, entry, found, bind, Except.bind]⟩

/-- What passes the checks of an operator is allowed by the typing judgement. -/
theorem types_of_accepted {op : Op} {types : List Ty} {ty : Ty}
    (arity : op.arity.accepts types.length) (checked : op.checkTypes types = .ok ())
    (result : op.resultTy types = .ok ty) : op.Types types ty := by
  cases op with
  | not =>
    obtain ⟨a, rfl⟩ := List.length_eq_one_iff.mp (by simpa [Op.arity, Arity.accepts] using arity)
    obtain rfl : a = .bool := by simpa [checkTypes, requireAll_eq_ok_iff, isBool_iff] using checked
    cases result
    exact .not
  | and =>
    simp only [checkTypes, requireAll_eq_ok_iff, isBool_iff] at checked
    cases result
    exact .and (by simpa [Op.arity, Arity.accepts, Nat.one_le_iff_ne_zero] using arity) checked
  | or =>
    simp only [checkTypes, requireAll_eq_ok_iff, isBool_iff] at checked
    cases result
    exact .or (by simpa [Op.arity, Arity.accepts, Nat.one_le_iff_ne_zero] using arity) checked
  | clause =>
    simp only [checkTypes, requireAll_eq_ok_iff, isBool_iff] at checked
    cases result
    exact .clause (by simpa [Op.arity, Arity.accepts, Nat.one_le_iff_ne_zero] using arity) checked
  | xor =>
    obtain ⟨a, b, rfl⟩ := List.length_eq_two.mp (by simpa [Op.arity, Arity.accepts] using arity)
    obtain ⟨rfl, rfl⟩ : a = .bool ∧ b = .bool := by
      simpa [checkTypes, requireAll_eq_ok_iff, isBool_iff] using checked
    cases result
    exact .xor
  | implies =>
    obtain ⟨a, b, rfl⟩ := List.length_eq_two.mp (by simpa [Op.arity, Arity.accepts] using arity)
    obtain ⟨rfl, rfl⟩ : a = .bool ∧ b = .bool := by
      simpa [checkTypes, requireAll_eq_ok_iff, isBool_iff] using checked
    cases result
    exact .implies
  | ite =>
    obtain ⟨c, t, e, rfl⟩ := List.length_eq_three.mp (by simpa [Op.arity, Arity.accepts] using arity)
    simp only [checkTypes] at checked
    split_ifs at checked with notBool notScalar differ
    cases result
    obtain rfl : c = .bool := isBool_iff.mp (by simpa using notBool)
    obtain rfl : e = ty := by simpa using differ
    exact .ite (by simpa only [Bool.not_eq_true', Bool.not_eq_false, Bool.or_eq_true] using notScalar)
  | eq =>
    obtain ⟨a, b, rfl⟩ := List.length_eq_two.mp (by simpa [Op.arity, Arity.accepts] using arity)
    simp only [checkTypes] at checked
    split_ifs at checked with differ
    obtain rfl : a = b := by simpa using differ
    cases result
    exact .eq a
  | bit index =>
    obtain ⟨a, rfl⟩ := List.length_eq_one_iff.mp (by simpa [Op.arity, Arity.accepts] using arity)
    cases result
    cases a with
    | uint width =>
      simp only [checkTypes, Ty.width?] at checked
      split_ifs at checked with inside
      exact .bit inside
    | bool => simp [checkTypes, Ty.width?] at checked
    | tuple fields => simp [checkTypes, Ty.width?] at checked
  | bits =>
    simp only [checkTypes, requireAll_eq_ok_iff, isBool_iff] at checked
    obtain ⟨positive, rfl⟩ := uint?_eq_ok_iff.mp result
    exact .bits (List.length_pos_iff.mp positive) checked
  | add width =>
    obtain ⟨a, b, rfl⟩ := List.length_eq_two.mp (by simpa [Op.arity, Arity.accepts] using arity)
    obtain ⟨positive, rfl⟩ := uint?_eq_ok_iff.mp result
    obtain ⟨⟨left, rfl⟩, right, rfl⟩ : (∃ left, a = .uint left) ∧ ∃ right, b = .uint right := by
      simpa [checkTypes, requireAll_eq_ok_iff, isUint_iff, positive.ne'] using checked
    exact .add positive left right
  | mul width =>
    obtain ⟨a, b, rfl⟩ := List.length_eq_two.mp (by simpa [Op.arity, Arity.accepts] using arity)
    obtain ⟨positive, rfl⟩ := uint?_eq_ok_iff.mp result
    obtain ⟨⟨left, rfl⟩, right, rfl⟩ : (∃ left, a = .uint left) ∧ ∃ right, b = .uint right := by
      simpa [checkTypes, requireAll_eq_ok_iff, isUint_iff, positive.ne'] using checked
    exact .mul positive left right
  | tuple =>
    cases result
    exact .tuple (by simpa [Op.arity, Arity.accepts, Nat.one_le_iff_ne_zero] using arity)
  | field index =>
    obtain ⟨a, rfl⟩ := List.length_eq_one_iff.mp (by simpa [Op.arity, Arity.accepts] using arity)
    cases a with
    | tuple fields =>
      simp only [resultTy, entry, List.getElem?_cons_zero, bind, Except.bind] at result
      split at result
      · rename_i found
        cases result
        exact .field found
      · cases result
    | bool => simp [checkTypes, Ty.fields?] at checked
    | uint width => simp [checkTypes, Ty.fields?] at checked

/-- The checks of an operator on operand types pass and give a result type
exactly when the typing judgement holds. -/
theorem types_iff {op : Op} {types : List Ty} {ty : Ty} :
    op.Types types ty ↔
      op.arity.accepts types.length ∧ op.checkTypes types = .ok () ∧ op.resultTy types = .ok ty :=
  ⟨Types.accepted, fun accepted => types_of_accepted accepted.1 accepted.2.1 accepted.2.2⟩

/-- An operator on operands has one type. -/
theorem Types.unique {op : Op} {types : List Ty} {ty other : Ty} (typed : op.Types types ty)
    (otherTyped : op.Types types other) : ty = other :=
  Except.ok.inj (typed.accepted.2.2.symm.trans otherTyped.accepted.2.2)

end Op

namespace Pool

/-- An expression is stored and has a type. -/
def HasTy (pool : Pool) (e : ExprId) (ty : Ty) : Prop :=
  ∃ form, pool.node? e = some ⟨ty, form⟩

/-- An operator may be applied to stored operands, and the application has a
type. The operands of a clause are literals. -/
structure Applies (pool : Pool) (op : Op) (operands : List ExprId) (ty : Ty) : Prop where
  typed : ∃ types, List.Forall₂ pool.HasTy operands types ∧ op.Types types ty
  literals : op = .clause → ∀ operand ∈ operands, pool.isLiteral operand

/-- A name was given out exactly when it has a node. -/
theorem has_iff {pool : Pool} {e : ExprId} : pool.Has e ↔ ∃ node, pool.node? e = some node := by
  unfold Has node? InternTable.get? size InternTable.size
  cases index : e.index with
  | zero => simp
  | succ position =>
    rw [← Option.isSome_iff_exists]
    simp

theorem HasTy.has {pool : Pool} {e : ExprId} {ty : Ty} (typed : pool.HasTy e ty) : pool.Has e := by
  obtain ⟨form, stored⟩ := typed
  exact has_iff.mpr ⟨_, stored⟩

/-- An expression has one type. -/
theorem HasTy.unique {pool : Pool} {e : ExprId} {ty other : Ty} (typed : pool.HasTy e ty)
    (otherTyped : pool.HasTy e other) : ty = other := by
  obtain ⟨form, stored⟩ := typed
  obtain ⟨otherForm, otherStored⟩ := otherTyped
  rw [stored] at otherStored
  cases otherStored
  rfl

theorem node_eq_ok_iff {pool : Pool} {e : ExprId} {node : Node} :
    pool.node e = .ok node ↔ pool.node? e = some node :=
  InternTable.get_eq_ok_iff

theorem ty_eq_ok_iff {pool : Pool} {e : ExprId} {ty : Ty} :
    pool.ty e = .ok ty ↔ pool.HasTy e ty := by
  unfold Pool.ty HasTy
  simp only [← node_eq_ok_iff, bind, Except.bind, pure, Except.pure]
  cases pool.node e with
  | error fault => simp
  | ok node =>
    cases node
    simp [eq_comm]

theorem tys_eq_ok_iff {pool : Pool} {operands : List ExprId} {types : List Ty} :
    pool.tys operands = .ok types ↔ List.Forall₂ pool.HasTy operands types := by
  simp only [tys, mapM_eq_ok_iff, ty_eq_ok_iff]

theorem requireLiterals_eq_ok_iff {pool : Pool} {position : Nat} {operands : List ExprId} :
    pool.requireLiterals position operands = .ok () ↔
      ∀ operand ∈ operands, pool.isLiteral operand := by
  induction operands generalizing position with
  | nil => simp [requireLiterals]
  | cons operand operands inductionHypothesis =>
    unfold requireLiterals
    split
    · rename_i literal
      simp [inductionHypothesis, literal]
    · rename_i other
      simp [other]

theorem validate_eq_ok_iff {pool : Pool} {op : Op} {operands : List ExprId} {types : List Ty} :
    pool.validate op operands = .ok types ↔
      op.arity.accepts operands.length ∧ List.Forall₂ pool.HasTy operands types ∧
        op.checkTypes types = .ok () ∧
          (op = .clause → ∀ operand ∈ operands, pool.isLiteral operand) := by
  unfold validate
  by_cases arity : op.arity.accepts operands.length
  · rw [if_pos arity]
    simp only [bind_eq_ok_iff, mapError_eq_ok_iff, tys_eq_ok_iff]
    constructor
    · rintro ⟨found, each, _, passed, rest⟩
      split at rest
      · simp only [bind_eq_ok_iff, mapError_eq_ok_iff] at rest
        obtain ⟨_, literals, same⟩ := rest
        cases same
        exact ⟨arity, each, passed, fun _ => requireLiterals_eq_ok_iff.mp literals⟩
      · rename_i notClause
        cases rest
        exact ⟨arity, each, passed, fun isClause => absurd isClause notClause⟩
    · rintro ⟨_, each, passed, literals⟩
      refine ⟨types, each, (), passed, ?_⟩
      split
      · rename_i isClause
        simp only [bind_eq_ok_iff, mapError_eq_ok_iff]
        exact ⟨(), requireLiterals_eq_ok_iff.mpr (literals isClause), rfl⟩
      · rfl
  · simp [arity, throw, throwThe, MonadExceptOf.throw, bind, Except.bind]

/-- The checks made when an application is built decide whether it may be built. -/
theorem typing_eq_ok_iff {pool : Pool} {op : Op} {operands : List ExprId} {ty : Ty} :
    pool.typing op operands = .ok ty ↔ pool.Applies op operands ty := by
  simp only [typing, bind_eq_ok_iff, mapError_eq_ok_iff, validate_eq_ok_iff]
  constructor
  · rintro ⟨types, ⟨arity, each, passed, literals⟩, result⟩
    rw [each.length_eq] at arity
    exact ⟨⟨types, each, Op.types_iff.mpr ⟨arity, passed, result⟩⟩, literals⟩
  · rintro ⟨⟨types, each, typed⟩, literals⟩
    obtain ⟨arity, passed, result⟩ := Op.types_iff.mp typed
    rw [← each.length_eq] at arity
    exact ⟨types, ⟨arity, each, passed, literals⟩, result⟩

end Pool

end Clausal
