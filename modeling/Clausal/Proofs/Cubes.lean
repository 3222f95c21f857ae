import Mathlib
import Clausal.Proofs.Readings

/-!
# Cubes of models

A model binds every variable of some constraints to a value and leaves some bits
open. Its cube are the values of the variables that agree with it on the bits that are
not left open. `Model.Solves` says that all constraints are true throughout the cube,
and that the generator of the model is true exactly there.
-/

namespace Clausal

namespace Model

variable {model : Model} {pool later : Pool} {constraints : List ExprId} {env : Env}

/-- A bit of a variable is listed as unconstrained. -/
def Leaves (model : Model) (x : ExprId) (index : Nat) : Prop :=
  ∃ free, (x, free) ∈ model.unconstrained ∧ index ∈ free

/-- Values have the bits that a model does not leave open. -/
def Agrees (model : Model) (pool : Pool) (env : Env) : Prop :=
  ∀ binding ∈ model.bindings, ∀ ty value, pool.HasTy binding.var ty → env binding.name = some value →
    ∀ index < ty.bitSize, ¬model.Leaves binding.var index →
      (ty.encode value)[index]? = (ty.encode binding.value)[index]?

/-- Values of the variables of constraints that agree with a model. -/
def Cube (model : Model) (pool : Pool) (constraints : List ExprId) (env : Env) : Prop :=
  (∀ constraint ∈ constraints, pool.Binds env constraint) ∧ model.Agrees pool env

/-- A model binds exactly the variables of constraints, each once and to a value of its
type. -/
structure Assigns (model : Model) (pool : Pool) (constraints : List ExprId) : Prop where
  nodup : (model.bindings.map Binding.var).Nodup
  vars : ∀ x, x ∈ model.bindings.map Binding.var ↔
    (∃ constraint ∈ constraints, pool.Reaches constraint x) ∧ pool.isVariable x
  valid : ∀ binding ∈ model.bindings, ∃ ty,
    pool.node? binding.var = some ⟨ty, .var binding.name⟩ ∧ ty.admits binding.value

/-- An expression that is true exactly for values that agree with a model. -/
structure Generator (model : Model) (pool : Pool) (constraints : List ExprId) (whole : ExprId) :
    Prop where
  isBool : pool.HasTy whole .bool
  reaches : ∀ x, pool.Reaches whole x → pool.isVariable x →
    ∃ constraint ∈ constraints, pool.Reaches constraint x
  means : ∀ env, (∀ constraint ∈ constraints, pool.Binds env constraint) →
    ∃ truth, pool.evaluate whole env = .ok (.bool truth) ∧ (truth ↔ model.Agrees pool env)

/-- A model of constraints whose open bits do not matter. If it comes with a generator,
this is missing only if all bits are open. -/
structure Solves (model : Model) (pool : Pool) (constraints : List ExprId) (generate : Bool) :
    Prop where
  assigns : model.Assigns pool constraints
  accepts : ∀ env, model.Cube pool constraints env →
    ∀ constraint ∈ constraints, pool.Accepts env constraint
  none_iff : generate → (model.generator = none ↔ ∀ binding ∈ model.bindings, ∀ ty,
    pool.HasTy binding.var ty → ∀ index < ty.bitSize, model.Leaves binding.var index)
  generates : generate → ∀ whole ∈ model.generator, model.Generator pool constraints whole

section OwnValues

/-- The values of a model are looked up by name, which determines the variable. -/
theorem Assigns.env_eq (assigns : model.Assigns pool constraints) (typed : pool.WellTyped)
    {binding : Binding} (member : binding ∈ model.bindings) :
    model.env binding.name = some binding.value := by
  unfold env get?
  cases search : model.bindings.find? (fun other => other.name == binding.name) with
  | none => simpa using List.find?_eq_none.mp search binding member
  | some other =>
    have otherMember := List.mem_of_find?_eq_some search
    have sameName : other.name = binding.name := by simpa using List.find?_some search
    obtain ⟨ty, stored, -⟩ := assigns.valid binding member
    obtain ⟨otherTy, otherStored, -⟩ := assigns.valid other otherMember
    have sameVar : other.var = binding.var :=
      typed.eq_of_name_eq (Pool.variableName?_eq_some_iff.mpr ⟨otherTy, otherStored⟩)
        (Pool.variableName?_eq_some_iff.mpr ⟨ty, sameName ▸ stored⟩)
    rw [List.inj_on_of_nodup_map assigns.nodup otherMember member sameVar]
    rfl

/-- The values of a model are in its cube. -/
theorem Assigns.cube_env (assigns : model.Assigns pool constraints) (typed : pool.WellTyped) :
    model.Cube pool constraints model.env := by
  refine ⟨fun constraint member x ty name reaches stored => ?_,
    fun binding member ty value hasTy given index _ _ => ?_⟩
  · have isVariable := Pool.isVariable_iff.mpr ⟨ty, name, stored⟩
    obtain ⟨binding, bindingMember, rfl⟩ :=
      List.mem_map.mp ((assigns.vars x).mpr ⟨⟨constraint, member, reaches⟩, isVariable⟩)
    obtain ⟨ownTy, ownStored, admitted⟩ := assigns.valid binding bindingMember
    rw [stored] at ownStored
    cases ownStored
    exact ⟨binding.value, assigns.env_eq typed bindingMember, admitted⟩
  · rw [assigns.env_eq typed member] at given
    rw [Option.some.inj given]

theorem verify_iff : model.verify pool constraints ↔
    ∀ constraint ∈ constraints, pool.Accepts model.env constraint := by
  unfold verify
  rw [List.all_eq_true]
  refine forall₂_congr fun constraint _ => ?_
  unfold Pool.Accepts
  cases pool.evaluate constraint model.env <;> simp

/-- The values of a model make the constraints true. -/
theorem Solves.verify {generate : Bool} (solves : model.Solves pool constraints generate)
    (typed : pool.WellTyped) : model.verify pool constraints :=
  verify_iff.mpr (solves.accepts model.env (solves.assigns.cube_env typed))

end OwnValues

section Growth

variable (extension : pool.Extends later)
include extension

theorem Assigns.extend (assigns : model.Assigns pool constraints)
    (stored : ∀ constraint ∈ constraints, pool.Has constraint) : model.Assigns later constraints := by
  refine ⟨assigns.nodup, fun x => ?_, fun binding member => ?_⟩
  · have reaches : (∃ constraint ∈ constraints, later.Reaches constraint x) ↔
        ∃ constraint ∈ constraints, pool.Reaches constraint x :=
      exists_congr fun constraint => and_congr_right fun member =>
        extension.reaches_iff (stored constraint member)
    rw [assigns.vars, reaches]
    refine and_congr_right fun ⟨constraint, member, reached⟩ => ?_
    rw [extension.isVariable_eq (Pool.Reaches.has reached (stored constraint member))]
  · obtain ⟨ty, found, admitted⟩ := assigns.valid binding member
    exact ⟨ty, extension found, admitted⟩

theorem Assigns.agrees_iff (assigns : model.Assigns pool constraints) :
    model.Agrees later env ↔ model.Agrees pool env := by
  refine forall₂_congr fun binding member => forall_congr' fun ty => ?_
  obtain ⟨_, found, -⟩ := assigns.valid binding member
  rw [extension.hasTy_iff (Pool.has_iff.mpr ⟨_, found⟩)]

theorem Assigns.cube_iff (assigns : model.Assigns pool constraints)
    (stored : ∀ constraint ∈ constraints, pool.Has constraint) :
    model.Cube later constraints env ↔ model.Cube pool constraints env := by
  refine and_congr (forall₂_congr fun constraint member => ?_) (assigns.agrees_iff extension)
  exact extension.binds_iff (stored constraint member)

theorem Generator.extend {whole : ExprId} (generator : model.Generator pool constraints whole)
    (assigns : model.Assigns pool constraints)
    (stored : ∀ constraint ∈ constraints, pool.Has constraint) :
    model.Generator later constraints whole := by
  have isStored := generator.isBool.has
  refine ⟨extension.hasTy generator.isBool, fun x reaches isVariable => ?_, fun env bound => ?_⟩
  · rw [extension.reaches_iff isStored] at reaches
    rw [extension.isVariable_eq (reaches.has isStored)] at isVariable
    obtain ⟨constraint, member, reached⟩ := generator.reaches x reaches isVariable
    exact ⟨constraint, member, (extension.reaches_iff (stored constraint member)).mpr reached⟩
  · rw [extension.evaluate_eq isStored, assigns.agrees_iff extension]
    exact generator.means env fun constraint member =>
      (extension.binds_iff (stored constraint member)).mp (bound constraint member)

/-- A model keeps solving its constraints when the pool grows. -/
theorem Solves.extend {generate : Bool} (solves : model.Solves pool constraints generate)
    (stored : ∀ constraint ∈ constraints, pool.Has constraint) :
    model.Solves later constraints generate := by
  have assigns := solves.assigns
  refine ⟨assigns.extend extension stored, fun env cube constraint member => ?_, fun generates => ?_,
    fun generates whole isWhole => (solves.generates generates whole isWhole).extend extension assigns stored⟩
  · rw [Pool.Accepts, extension.evaluate_eq (stored constraint member)]
    exact solves.accepts env ((assigns.cube_iff extension stored).mp cube) constraint member
  · rw [solves.none_iff generates]
    refine forall₂_congr fun binding member => forall_congr' fun ty => ?_
    obtain ⟨_, found, -⟩ := assigns.valid binding member
    rw [extension.hasTy_iff (Pool.has_iff.mpr ⟨_, found⟩)]

end Growth

end Model

namespace Solve

variable {pool : Pool} {constraints vars : List ExprId} {bits : ExprId → List (Option Bool)}
  {generate : Bool} {found : Model} {env : Env} {x : ExprId}

/-- A row has the given bits if it has those of a row with the given bits. -/
theorem matches_iff_agrees {bits : List (Option Bool)} {row : List Bool}
    (length : bits.length = row.length) :
    Matches bits row ↔ ∀ index < row.length, bits[index]? ≠ some none →
      row[index]? = (bits.map fun bit => bit.getD false)[index]? := by
  rw [matches_iff_getElem? length]
  constructor
  · intro each index inside closed
    obtain ⟨bit, isBit⟩ : ∃ bit, bits[index]? = some bit :=
      ⟨_, List.getElem?_eq_getElem (length ▸ inside)⟩
    cases bit with
    | none => exact (closed isBit).elim
    | some given => simp [each index given isBit, isBit]
  · intro each index given isGiven
    have inside : index < row.length := by
      obtain ⟨inside, -⟩ := List.getElem?_eq_some_iff.mp isGiven
      exact length ▸ inside
    simpa [isGiven] using each index inside (by simp [isGiven])

/-- The bits that a model leaves open are those that are not known. -/
theorem Inverts.leaves_iff (inverts : Inverts pool vars bits generate found) (member : x ∈ vars)
    (index : Nat) : found.Leaves x index ↔ (bits x)[index]? = some none := by
  rw [← mem_openBits_iff]
  constructor
  · rintro ⟨free, listed, inside⟩
    rwa [((inverts.unconstrained x free).mp listed).2.1] at inside
  · intro inside
    exact ⟨_, (inverts.unconstrained x _).mpr ⟨member, rfl, List.ne_nil_of_mem inside⟩, inside⟩

/-- Agreement with a model is agreement on the known bits. -/
theorem Inverts.completes_iff (inverts : Inverts pool vars bits generate found)
    (bound : ∀ x ∈ vars, ∃ value, pool.evaluate x env = .ok value) :
    Completes pool bits vars env ↔ found.Agrees pool env := by
  unfold Completes Model.Agrees
  conv_lhs => rw [← inverts.vars_eq, List.forall_mem_map]
  refine forall₂_congr fun binding member => ?_
  have listed : binding.var ∈ vars := inverts.vars_eq ▸ List.mem_map_of_mem member
  obtain ⟨ty, stored, length, value⟩ := inverts.bindings binding member
  obtain ⟨own, evaluated⟩ := bound binding.var listed
  obtain ⟨given, admitted⟩ := (Pool.evaluate_var stored).mp evaluated
  have size := Ty.length_encode ty own admitted
  have same : Matches (bits binding.var) (ty.encode own) ↔ ∀ index < ty.bitSize,
      ¬found.Leaves binding.var index → (ty.encode own)[index]? = (ty.encode binding.value)[index]? := by
    rw [matches_iff_agrees (length.trans size.symm), size, value,
      Ty.encode_decode ty _ (by rw [List.length_map, length])]
    simp only [inverts.leaves_iff listed, ne_eq]
  constructor
  · rintro ⟨ownTy, other, hasTy, otherEvaluated, fits⟩ otherTy another otherHasTy isAnother
    obtain rfl := hasTy.unique ⟨_, stored⟩
    obtain rfl := otherHasTy.unique hasTy
    obtain rfl := Except.ok.inj (otherEvaluated.symm.trans evaluated)
    obtain rfl := Option.some.inj (isAnother.symm.trans given)
    exact same.mp fits
  · exact fun agrees => ⟨ty, own, ⟨_, stored⟩, evaluated, same.mpr (agrees ty own ⟨_, stored⟩ given)⟩

/-- No bit is known exactly if all bits are left open. -/
theorem Inverts.all_none_iff (inverts : Inverts pool vars bits generate found) :
    (∀ x ∈ vars, (bits x).all Option.isNone) ↔ ∀ binding ∈ found.bindings, ∀ ty,
      pool.HasTy binding.var ty → ∀ index < ty.bitSize, found.Leaves binding.var index := by
  conv_lhs => rw [← inverts.vars_eq, List.forall_mem_map]
  refine forall₂_congr fun binding member => ?_
  have listed : binding.var ∈ vars := inverts.vars_eq ▸ List.mem_map_of_mem member
  obtain ⟨ty, stored, length, -⟩ := inverts.bindings binding member
  simp only [inverts.leaves_iff listed]
  rw [List.all_eq_true]
  constructor
  · intro none otherTy hasTy index inside
    obtain rfl := hasTy.unique ⟨_, stored⟩
    rw [← length] at inside
    rw [List.getElem?_eq_getElem inside, Option.isNone_iff_eq_none.mp (none _ (List.getElem_mem inside))]
  · intro leaves bit bitMember
    obtain ⟨index, isBit⟩ := List.getElem?_of_mem bitMember
    obtain ⟨inside, -⟩ := List.getElem?_eq_some_iff.mp isBit
    have isNone := leaves ty ⟨_, stored⟩ index (length ▸ inside)
    rw [Option.some.inj (isBit.symm.trans isNone)]
    rfl

/-- A model that is made from known bits solves constraints that are true whenever the
variables have these bits. -/
theorem Inverts.solves (inverts : Inverts pool vars bits generate found) (nodup : vars.Nodup)
    (surface : ∀ x, x ∈ vars ↔ (∃ constraint ∈ constraints, pool.Reaches constraint x) ∧ pool.isVariable x)
    (accepts : ∀ env, Completes pool bits vars env →
      ∀ constraint ∈ constraints, pool.Accepts env constraint) :
    found.Solves pool constraints generate := by
  have evaluated : ∀ env, (∀ constraint ∈ constraints, pool.Binds env constraint) →
      ∀ x ∈ vars, ∃ value, pool.evaluate x env = .ok value := by
    intro env bound x member
    obtain ⟨⟨constraint, constraintMember, reaches⟩, isVariable⟩ := (surface x).mp member
    obtain ⟨ty, name, stored⟩ := Pool.isVariable_iff.mp isVariable
    obtain ⟨value, holds⟩ := bound constraint constraintMember reaches stored
    exact ⟨value, (Pool.evaluate_var stored).mpr holds⟩
  refine ⟨⟨inverts.vars_eq.symm ▸ nodup, fun x => inverts.vars_eq.symm ▸ surface x, ?_⟩, ?_, ?_, ?_⟩
  · intro binding member
    obtain ⟨ty, stored, -, value⟩ := inverts.bindings binding member
    exact ⟨ty, stored, value ▸ Ty.admits_decode ty _⟩
  · rintro env ⟨bound, agrees⟩
    exact accepts env ((inverts.completes_iff (evaluated env bound)).mpr agrees)
  · exact fun generates => (inverts.none_iff generates).trans inverts.all_none_iff
  · intro generates whole isWhole
    have own := inverts.generates generates whole isWhole
    refine ⟨own.isBool, fun x reaches isVariable => ?_, fun env bound => ?_⟩
    · exact ((surface x).mp (own.reaches x reaches isVariable)).1
    · obtain ⟨⟨truth, computed⟩, means⟩ := own.means env (evaluated env bound)
      rw [inverts.completes_iff (evaluated env bound), Pool.Accepts, computed] at means
      exact ⟨truth, computed, by simpa using means⟩

end Solve

end Clausal
