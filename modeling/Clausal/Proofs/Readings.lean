import Mathlib
import Clausal.Proofs.Compilation
import Clausal.Proofs.Generators
import Clausal.Proofs.Numbering

/-!
# Reading models back

The variables of constraints get values from an engine's model of the formula. Bits
whose variables have no number are free: whatever is put in their places, the
constraints stay true.
-/

namespace Clausal

attribute [local irreducible] Lit.ofVar

/-- Literals with different variables can be given any truth values. -/
theorem exists_assignment_of_nodup {row : List (Lit × Bool)}
    (nodup : (row.map fun pair => pair.1.var).Nodup) (truth : Assignment) :
    ∃ other : Assignment, (∀ pair ∈ row, pair.1.holds other = pair.2) ∧
      ∀ var, var ∉ row.map (fun pair => pair.1.var) → other var = truth var := by
  induction row with
  | nil => exact ⟨truth, nofun, fun _ _ => rfl⟩
  | cons pair row inductionHypothesis =>
    obtain ⟨lit, bit⟩ := pair
    obtain ⟨fresh, rest⟩ := List.nodup_cons.mp nodup
    obtain ⟨other, holds, unchanged⟩ := inductionHypothesis rest
    refine ⟨Function.update other lit.var (bit != lit.isNegated), ?_, fun var missing => ?_⟩
    · refine List.forall_mem_cons.mpr ⟨?_, fun pair member => ?_⟩
      · simp [Lit.holds, Lit.eval]
      · have differ : pair.1.var ≠ lit.var := fun same => fresh (List.mem_map.mpr ⟨pair, member, same⟩)
        rw [← holds pair member, Lit.holds, Lit.holds, Function.update_of_ne differ]
    · simp only [List.map_cons, List.mem_cons, not_or] at missing
      rw [Function.update_of_ne missing.1, unchanged var missing.2]

namespace Session

variable {pool : Pool} {session : Session} {accepted : Env → Prop}

/-- The literals of the variables of a session can be given any bits. -/
theorem Exact.exists_assignment (exact : session.Exact pool accepted) (rows : ExprId → List Bool)
    (length : ∀ entry ∈ session.surface, (rows entry.1).length = entry.2.size) (truth : Assignment) :
    ∃ other : Assignment,
      (∀ entry ∈ session.surface, entry.2.toList.map (Lit.holds other) = rows entry.1) ∧
        ∀ var, var ∉ session.surfaceVars → other var = truth var := by
  have sizes : ∀ entry ∈ session.surface, entry.2.toList.length = (rows entry.1).length := by
    intro entry member
    rw [length entry member, Array.length_toList]
  have vars : (session.surface.toList.flatMap fun entry => entry.2.toList.zip (rows entry.1)).map
      (fun pair => pair.1.var) = session.surfaceVars := by
    rw [List.map_flatMap, surfaceVars]
    refine List.flatMap_congr fun entry member => ?_
    have firsts := List.map_fst_zip (sizes entry (Array.mem_toList_iff.mp member)).le
    conv_rhs => rw [← firsts, List.map_map]
    rfl
  obtain ⟨other, holds, unchanged⟩ := exists_assignment_of_nodup (vars ▸ exact.apart) truth
  rw [vars] at unchanged
  refine ⟨other, fun entry member => ?_, unchanged⟩
  have each : List.Forall₂ (fun lit bit => lit.holds other = bit) entry.2.toList (rows entry.1) := by
    refine List.forall₂_iff_zip.mpr ⟨sizes entry member, fun {lit bit} inside => ?_⟩
    exact holds (lit, bit) (List.mem_flatMap.mpr ⟨entry, Array.mem_toList_iff.mpr member, inside⟩)
  rwa [← List.forall₂_map_left_iff, List.forall₂_eq_eq_eq] at each

end Session

namespace Solve

variable {compiled : Compiled} {pool later : Pool} {constraints : List ExprId} {truth : Assignment}
  {model : Array Bool} {x : ExprId}

/-- What is known about compiled constraints stays true in a larger pool. -/
theorem Compiles.extend (compiles : Compiles compiled pool constraints)
    (extension : pool.Extends later) (stored : ∀ constraint ∈ constraints, pool.Has constraint) :
    Compiles compiled later constraints := by
  refine ⟨(compiles.exact.extend extension).congr fun env => ?_, fun x => ?_, compiles.nodup,
    compiles.lowered, compiles.numbered⟩
  · refine forall₂_congr fun constraint member => ?_
    rw [Pool.Accepts, Pool.Accepts, extension.evaluate_eq (stored constraint member)]
  · have reaches : (∃ constraint ∈ constraints, later.Reaches constraint x) ↔
        ∃ constraint ∈ constraints, pool.Reaches constraint x :=
      exists_congr fun constraint => and_congr_right fun member =>
        extension.reaches_iff (stored constraint member)
    rw [compiles.surface, reaches]
    apply and_congr_right
    rintro ⟨constraint, member, reached⟩
    rw [extension.isVariable_eq (Pool.Reaches.has reached (stored constraint member))]

theorem Compiles.dense (compiles : Compiles compiled pool constraints) : compiled.numbering.Dense := by
  have spec := (Cnf.ofClauses_spec compiled.session.store.toList).1
  rwa [compiles.numbered] at spec

theorem Compiles.numVars_eq (compiles : Compiles compiled pool constraints) :
    compiled.cnf.numVars = compiled.numbering.size := by
  have spec := (Cnf.ofClauses_spec compiled.session.store.toList).2.1
  rwa [compiles.numbered] at spec

/-- The formula and the clauses of the session are true together. -/
theorem Compiles.eval_iff (compiles : Compiles compiled pool constraints)
    (carries : compiled.numbering.Carries model truth) :
    compiled.cnf.eval model = .ok true ↔ compiled.session.Satisfied truth := by
  have same := compiles.numbered
  have evaluates := @Cnf.eval_ofClauses compiled.session.store.toList model truth
  rw [same] at evaluates
  exact evaluates carries

/-- A variable of the constraints has a literal for every bit. -/
theorem Compiles.exists_literals (compiles : Compiles compiled pool constraints)
    (member : x ∈ compiled.surface) :
    ∃ ty name lits, pool.node? x = some ⟨ty, .var name⟩ ∧
      compiled.session.literals[x]? = some lits ∧ (x, lits) ∈ compiled.session.surface ∧
        lits.size = ty.bitSize := by
  have isVariable := ((compiles.surface x).mp member).2
  obtain ⟨ty, name, stored⟩ := Pool.isVariable_iff.mp isVariable
  obtain ⟨lits, found⟩ := Option.isSome_iff_exists.mp
    (Std.HashMap.mem_iff_isSome_getElem?.mp (compiles.lowered x member))
  obtain ⟨ownTy, represents⟩ := compiles.exact.cached x lits found
  obtain rfl := represents.hasTy.unique ⟨_, stored⟩
  exact ⟨ownTy, name, lits, stored, found, (compiles.exact.surface x lits).mpr ⟨isVariable, found⟩,
    represents.row.size_eq⟩

/-- Values that make the constraints true give an assignment that makes the clauses true
and has these values. -/
theorem Compiles.exists_satisfied {env : Env} (compiles : Compiles compiled pool constraints)
    (typed : pool.WellTyped) (stored : ∀ constraint ∈ constraints, pool.Has constraint)
    (bound : ∀ constraint ∈ constraints, pool.Binds env constraint)
    (accepts : ∀ constraint ∈ constraints, pool.Accepts env constraint) :
    ∃ truth, compiled.session.Satisfied truth ∧ ∀ x ∈ compiled.surface, ∀ ty lits, pool.HasTy x ty →
      compiled.session.literals[x]? = some lits → pool.evaluate x env = .ok (truth.value ty lits) := by
  obtain ⟨whole, complete⟩ := typed.exists_completion env
  have wholeAccepts : ∀ constraint ∈ constraints, pool.Accepts whole constraint := by
    intro constraint member
    rw [Pool.Accepts, ← accepts constraint member]
    refine Pool.evaluate_congr (Pool.Extends.refl pool) (stored constraint member)
      fun {x ty name} reaches isStored => ?_
    obtain ⟨value, given, admitted⟩ := bound constraint member reaches isStored
    rw [given, (complete isStored).2 value given admitted]
  obtain ⟨truth, satisfied, agrees⟩ := compiles.exact.complete whole (fun entry member => by
    obtain ⟨isVariable, -⟩ := (compiles.exact.surface entry.1 entry.2).mp member
    obtain ⟨ty, name, isStored⟩ := Pool.isVariable_iff.mp isVariable
    obtain ⟨value, given, admitted⟩ := (complete isStored).1
    exact ⟨value, (Pool.evaluate_var isStored).mpr ⟨given, admitted⟩⟩) wholeAccepts
  refine ⟨truth, satisfied, fun x member ty lits hasTy found => ?_⟩
  obtain ⟨⟨constraint, inside, reaches⟩, isVariable⟩ := (compiles.surface x).mp member
  obtain ⟨ownTy, name, isStored⟩ := Pool.isVariable_iff.mp isVariable
  obtain ⟨value, given, admitted⟩ := bound constraint inside reaches isStored
  rw [← agrees (x, lits) ((compiles.exact.surface x lits).mpr ⟨isVariable, found⟩) ty hasTy,
    (Pool.evaluate_var isStored).mpr ⟨given, admitted⟩,
    (Pool.evaluate_var isStored).mpr ⟨(complete isStored).2 value given admitted, admitted⟩]

/-- Values that make the constraints true give a model of the formula. -/
theorem Compiles.exists_models {env : Env} (compiles : Compiles compiled pool constraints)
    (typed : pool.WellTyped) (stored : ∀ constraint ∈ constraints, pool.Has constraint)
    (bound : ∀ constraint ∈ constraints, pool.Binds env constraint)
    (accepts : ∀ constraint ∈ constraints, pool.Accepts env constraint) :
    ∃ model, compiled.cnf.Models model := by
  obtain ⟨truth, satisfied, -⟩ := compiles.exists_satisfied typed stored bound accepts
  obtain ⟨model, size, carries⟩ := compiles.dense.exists_model truth
  exact ⟨model, by rw [size, compiles.numVars_eq], (compiles.eval_iff carries).mpr satisfied⟩

/-- The bits of a variable that a model of the formula determines. -/
def knownBits (compiled : Compiled) (truth : Assignment) (x : ExprId) : List (Option Bool) :=
  (compiled.session.literals.getD x #[]).toList.map fun lit =>
    (compiled.numbering.get? lit.var).map fun _ => lit.holds truth

/-- Variables have values with the known bits. -/
def Completes (pool : Pool) (bits : ExprId → List (Option Bool)) (vars : List ExprId) (env : Env) : Prop :=
  ∀ x ∈ vars, ∃ ty value, pool.HasTy x ty ∧ pool.evaluate x env = .ok value ∧
    Matches (bits x) (ty.encode value)

theorem matches_knownBits_iff {lits : Array Lit} {other : Assignment}
    (found : compiled.session.literals[x]? = some lits) :
    Matches (knownBits compiled truth x) (lits.toList.map (Lit.holds other)) ↔
      ∀ lit ∈ lits, (compiled.numbering.get? lit.var).isSome → lit.holds truth = lit.holds other := by
  rw [Matches, knownBits, Std.HashMap.getD_eq_getD_getElem?, found, Option.getD_some,
    List.forall₂_map_left_iff, List.forall₂_map_right_iff, List.forall₂_same]
  simp only [Array.mem_toList_iff]
  refine forall₂_congr fun lit member => ?_
  cases compiled.numbering.get? lit.var <;> simp

theorem holds_eq_iff {lit : Lit} {other : Assignment} :
    lit.holds truth = lit.holds other ↔ truth lit.var = other lit.var := by
  simp [Lit.holds, Lit.eval]

/-- Every variable has a row of bits that fits what a model of the formula determines.
For the variables of the constraints it is the row of their value. -/
theorem Compiles.exists_row {env : Env} (compiles : Compiles compiled pool constraints)
    (typed : pool.WellTyped)
    (completes : Completes pool (knownBits compiled truth) compiled.surface env) (x : ExprId) :
    ∃ row : List Bool, ∀ lits, (x, lits) ∈ compiled.session.surface →
      row.length = lits.size ∧ Matches (knownBits compiled truth x) row ∧
        ∀ ty value, x ∈ compiled.surface → pool.HasTy x ty → pool.evaluate x env = .ok value →
          row = ty.encode value := by
  by_cases member : x ∈ compiled.surface
  · obtain ⟨ty, value, hasTy, evaluated, fits⟩ := completes x member
    refine ⟨ty.encode value, fun lits surfaceMember => ⟨?_, fits, ?_⟩⟩
    · obtain ⟨ownTy, represents⟩ := compiles.exact.represents_surface surfaceMember
      obtain rfl := represents.hasTy.unique hasTy
      rw [Ty.length_encode _ value (typed.admits hasTy evaluated), represents.row.size_eq]
    · intro otherTy other _ otherHasTy otherEvaluated
      rw [otherHasTy.unique hasTy, Except.ok.inj (otherEvaluated.symm.trans evaluated)]
  · refine ⟨(compiled.session.literals.getD x #[]).toList.map (Lit.holds truth),
      fun lits surfaceMember => ?_⟩
    have found := ((compiles.exact.surface x lits).mp surfaceMember).2
    rw [Std.HashMap.getD_eq_getD_getElem?, found, Option.getD_some]
    exact ⟨by simp, (matches_knownBits_iff found).mpr fun _ _ _ => rfl,
      fun _ _ isMember => (member isMember).elim⟩

/-- A model does not see a change of bits that it does not determine. -/
theorem Compiles.carries_of_matches {other : Assignment} (compiles : Compiles compiled pool constraints)
    (carries : compiled.numbering.Carries model truth)
    (fits : ∀ entry ∈ compiled.session.surface,
      Matches (knownBits compiled truth entry.1) (entry.2.toList.map (Lit.holds other)))
    (unchanged : ∀ var, var ∉ compiled.session.surfaceVars → other var = truth var) :
    compiled.numbering.Carries model other := by
  intro var number found
  rw [carries found]
  by_cases inside : var ∈ compiled.session.surfaceVars
  · obtain ⟨⟨x, lits⟩, entryMember, isVar⟩ := List.mem_flatMap.mp inside
    obtain ⟨lit, litMember, rfl⟩ := List.mem_map.mp isVar
    have surfaceMember := Array.mem_toList_iff.mp entryMember
    have isLowered := ((compiles.exact.surface x lits).mp surfaceMember).2
    have same := (matches_knownBits_iff isLowered).mp (fits (x, lits) surfaceMember) lit
      (Array.mem_toList_iff.mp litMember) (by simp [found])
    rw [holds_eq_iff.mp same]
  · rw [unchanged var inside]

/-- Values with the bits that a model of the formula determines make the constraints
true, whatever the other bits are. -/
theorem Compiles.accepts_of_completes {env : Env} (compiles : Compiles compiled pool constraints)
    (typed : pool.WellTyped) (stored : ∀ constraint ∈ constraints, pool.Has constraint)
    (carries : compiled.numbering.Carries model truth) (holds : compiled.cnf.eval model = .ok true)
    (completes : Completes pool (knownBits compiled truth) compiled.surface env) :
    ∀ constraint ∈ constraints, pool.Accepts env constraint := by
  choose row rowSpec using compiles.exists_row typed completes
  obtain ⟨other, reads, unchanged⟩ := compiles.exact.exists_assignment row
    (fun entry member => (rowSpec entry.1 entry.2 member).1) truth
  have otherCarries : compiled.numbering.Carries model other :=
    compiles.carries_of_matches carries
      (fun entry member => reads entry member ▸ (rowSpec entry.1 entry.2 member).2.1) unchanged
  have satisfied : compiled.session.Satisfied other := (compiles.eval_iff otherCarries).mp holds
  have agrees := compiles.exact.agrees_readBack typed other
  have accepts := compiles.exact.sound other _ satisfied agrees
  intro constraint member
  rw [Pool.Accepts, ← accepts constraint member]
  refine Pool.evaluate_congr (Pool.Extends.refl pool) (stored constraint member) ?_
  intro x ty name reaches isStored
  have isVariable := Pool.isVariable_iff.mpr ⟨ty, name, isStored⟩
  have surfaceMember := (compiles.surface x).mpr ⟨⟨constraint, member, reaches⟩, isVariable⟩
  obtain ⟨ownTy, value, hasTy, evaluated, -⟩ := completes x surfaceMember
  obtain ⟨_, _, lits, -, -, entryMember, -⟩ := compiles.exists_literals surfaceMember
  have readValue := agrees (x, lits) entryMember ownTy hasTy
  rw [Assignment.value, reads (x, lits) entryMember,
    (rowSpec x lits entryMember).2.2 ownTy value surfaceMember hasTy evaluated,
    Ty.decode_encode ownTy value (typed.admits hasTy evaluated)] at readValue
  rw [((Pool.evaluate_var isStored).mp evaluated).1, ((Pool.evaluate_var isStored).mp readValue).1]

/-- A literal is read from the model if its variable has a number. -/
theorem litTruth_eq {numbering : Numbering} (dense : numbering.Dense)
    (carries : numbering.Carries model truth) (lit : Lit) :
    litTruth numbering model lit = .ok ((numbering.get? lit.var).map fun _ => lit.holds truth) := by
  unfold litTruth Numbering.lit?
  cases found : numbering.get? lit.var with
  | none => rfl
  | some number =>
    obtain ⟨-, var, sign⟩ := Numbering.signed_spec lit (dense.inside found).1
    simp only [Option.map_some, var, carries found, sign]
    rfl

/-- What is read about a variable from its known bits. -/
structure Reads (pool : Pool) (bits : List (Option Bool)) (generate : Bool) (x : ExprId)
    (reading : Reading) : Prop where
  var : reading.binding.var = x
  binding : ∃ ty, pool.node? x = some ⟨ty, .var reading.binding.name⟩ ∧ bits.length = ty.bitSize ∧
    reading.binding.value = ty.decode (bits.map fun bit => bit.getD false)
  free : reading.free = openBits bits
  bools : ∀ part ∈ reading.parts, pool.HasTy part .bool
  silent : bits.all Option.isNone → reading.parts = []
  equates : generate → ∀ given, bits = given.map some → given ≠ [] → ∀ ty, pool.HasTy x ty →
    ∃ equality, reading.parts = [equality] ∧ Equates pool x ty (ty.decode given) equality
  pins : generate → ∀ ty, pool.HasTy x ty →
    Pins pool x (fun value => Matches bits (ty.encode value)) reading.parts

theorem Reads.mono {bits : List (Option Bool)} {generate : Bool} {reading : Reading}
    (reads : Reads pool bits generate x reading) (extension : pool.Extends later) :
    Reads later bits generate x reading := by
  obtain ⟨ty, stored, length, value⟩ := reads.binding
  refine ⟨reads.var, ⟨ty, extension stored, length, value⟩, reads.free,
    fun part member => extension.hasTy (reads.bools part member), reads.silent,
    fun generates given isGiven nonempty ownTy hasTy => ?_, fun generates ownTy hasTy => ?_⟩
  · obtain rfl := hasTy.unique ⟨_, extension stored⟩
    obtain ⟨equality, sole, equates⟩ := reads.equates generates given isGiven nonempty ownTy ⟨_, stored⟩
    exact ⟨equality, sole, equates.mono extension⟩
  · obtain rfl := hasTy.unique ⟨_, extension stored⟩
    exact (reads.pins generates ownTy ⟨_, stored⟩).mono extension (Pool.has_iff.mpr ⟨_, stored⟩)

/-- Nothing is demanded of a variable exactly if none of its bits is known. -/
theorem Reads.parts_eq_nil_iff {bits : List (Option Bool)} {reading : Reading}
    (reads : Reads pool bits true x reading) : reading.parts = [] ↔ bits.all Option.isNone := by
  refine ⟨fun none => all_none_of_matches fun row length => ?_, reads.silent⟩
  obtain ⟨ty, stored, size, -⟩ := reads.binding
  have pins := reads.pins rfl ty ⟨_, stored⟩
  have evaluated : pool.evaluate x (fun _ => some (ty.decode row)) = .ok (ty.decode row) :=
    (Pool.evaluate_var stored).mpr ⟨rfl, Ty.admits_decode ty row⟩
  have fits := (pins.means _ _ evaluated).2.mp (by rw [none]; nofun)
  rwa [Ty.encode_decode ty row (length.trans size)] at fits

/-- The value of a variable is read from its known bits; other bits are false. -/
theorem readVariable_yields {workspace : Workspace PassMemory} {ty : Ty} {name : String} {lits : Array Lit}
    (generate : Bool) (sound : workspace.Sound) (stored : workspace.pool.node? x = some ⟨ty, .var name⟩)
    (found : compiled.session.literals[x]? = some lits) (size : lits.size = ty.bitSize)
    (dense : compiled.numbering.Dense) (carries : compiled.numbering.Carries model truth) :
    Yields (readVariable compiled model generate x) workspace fun reading after =>
      Reads after.pool (knownBits compiled truth x) generate x reading := by
  have bits : lits.toList.mapM (litTruth compiled.numbering model) = .ok (knownBits compiled truth x) := by
    rw [mapM_eq_ok_iff, knownBits, Std.HashMap.getD_eq_getD_getElem?, found, Option.getD_some,
      List.forall₂_map_right_iff, List.forall₂_same]
    exact fun lit _ => litTruth_eq dense carries lit
  have length : (knownBits compiled truth x).length = ty.bitSize := by
    rw [knownBits, Std.HashMap.getD_eq_getD_getElem?, found]
    simpa using size
  have hasTy : workspace.pool.HasTy x ty := ⟨_, stored⟩
  unfold readVariable
  refine Stateful.Yields.get ?_
  simp only [found]
  refine Stateful.Yields.ofExcept bits (Stateful.Yields.ofExcept (Pool.ty_eq_ok_iff.mpr hasTy) ?_)
  refine Stateful.Yields.ofExcept (if_pos (by simpa using length)) ?_
  have named : (workspace.pool.variableName? x).getD "" = name := by
    rw [Pool.variableName?_eq_some_iff.mpr ⟨ty, stored⟩, Option.getD_some]
  rw [named]
  split
  · obtain ⟨parts, last, ended, grown, pins⟩ :=
      (bitConstraints_yields ty sound.typed hasTy length).exists_ok
    refine (ofBuild_yields (Stateful.Yields.of_ok ended grown)).bind ?_
    rintro _ after advances ⟨rfl, rfl⟩
    have later := advances.extension stored
    refine Stateful.Yields.pure ⟨rfl, ⟨ty, later, length, rfl⟩, rfl, pins.bools,
      fun none => bitConstraints_of_all_none none ended,
      fun _ given isGiven nonempty otherTy otherHasTy => ?_, fun _ otherTy otherHasTy => ?_⟩
    · rw [otherHasTy.unique ⟨_, later⟩]
      rw [isGiven] at ended length
      exact bitConstraints_of_all_some sound.typed hasTy (by simpa using length) nonempty ended
    · rwa [otherHasTy.unique ⟨_, later⟩]
  · rename_i quiet
    exact Stateful.Yields.pure ⟨rfl, ⟨ty, stored, length, rfl⟩, rfl, nofun, fun _ => rfl,
      fun generates => (quiet generates).elim, fun generates => (quiet generates).elim⟩

section Readings

variable {bits : ExprId → List (Option Bool)} {vars : List ExprId} {readings : List Reading}
  {generate : Bool}

/-- The parts of all readings are true exactly for values with the known bits. -/
theorem parts_mean {env : Env}
    (each : List.Forall₂ (fun x reading => Reads pool (bits x) true x reading) vars readings)
    (bound : ∀ x ∈ vars, ∃ value, pool.evaluate x env = .ok value) :
    (∀ part ∈ readings.flatMap Reading.parts, ∃ truth, pool.evaluate part env = .ok (.bool truth)) ∧
      ((∀ part ∈ readings.flatMap Reading.parts, pool.Accepts env part) ↔ Completes pool bits vars env) := by
  induction each with
  | nil => simp [Completes]
  | @cons x reading vars readings reads _ inductionHypothesis =>
    obtain ⟨⟨value, evaluated⟩, restBound⟩ := List.forall_mem_cons.mp bound
    obtain ⟨ty, stored, -, -⟩ := reads.binding
    obtain ⟨truths, means⟩ := (reads.pins rfl ty ⟨_, stored⟩).means env value evaluated
    obtain ⟨restTruths, restMeans⟩ := inductionHypothesis restBound
    have own : (∃ ty value, pool.HasTy x ty ∧ pool.evaluate x env = .ok value ∧
        Matches (bits x) (ty.encode value)) ↔ Matches (bits x) (ty.encode value) := by
      constructor
      · rintro ⟨otherTy, other, hasTy, otherEvaluated, fits⟩
        rwa [hasTy.unique ⟨_, stored⟩, Except.ok.inj (otherEvaluated.symm.trans evaluated)] at fits
      · exact fun fits => ⟨ty, value, ⟨_, stored⟩, evaluated, fits⟩
    rw [List.flatMap_cons, List.forall_mem_append, List.forall_mem_append, Completes,
      List.forall_mem_cons, own, means, restMeans]
    exact ⟨⟨truths, restTruths⟩, Iff.rfl⟩

/-- If all bits of one variable are known and no other bits are, the only part compares this
variable with its value. -/
theorem parts_eq_singleton {given : List Bool} {ty : Ty}
    (each : List.Forall₂ (fun x reading => Reads pool (bits x) true x reading) vars readings)
    (nodup : vars.Nodup) (member : x ∈ vars) (isGiven : bits x = given.map some) (nonempty : given ≠ [])
    (others : ∀ other ∈ vars, other ≠ x → (bits other).all Option.isNone) (hasTy : pool.HasTy x ty) :
    ∃ equality, readings.flatMap Reading.parts = [equality] ∧
      Equates pool x ty (ty.decode given) equality := by
  induction each with
  | nil => cases member
  | @cons y reading vars readings reads rest inductionHypothesis =>
    obtain ⟨absent, restNodup⟩ := List.nodup_cons.mp nodup
    obtain ⟨own, restOthers⟩ := List.forall_mem_cons.mp others
    rw [List.flatMap_cons]
    by_cases same : y = x
    · subst same
      obtain ⟨equality, sole, equates⟩ := reads.equates rfl given isGiven nonempty ty hasTy
      have silent : readings.flatMap Reading.parts = [] := by
        rw [List.flatMap_eq_nil_iff, ← forall_mem_iff_of_forall₂ (rest.imp fun z reading own =>
          own.parts_eq_nil_iff.symm)]
        intro z inside
        exact restOthers z inside fun isY => absent (isY ▸ inside)
      exact ⟨equality, by rw [sole, silent, List.append_nil], equates⟩
    · rw [reads.silent (own same), List.nil_append]
      exact inductionHypothesis restNodup ((List.mem_cons.mp member).resolve_left (Ne.symm same)) restOthers

/-- An expression that is true exactly for values with the known bits. -/
structure Generates (pool : Pool) (vars : List ExprId) (bits : ExprId → List (Option Bool))
    (whole : ExprId) : Prop where
  isBool : pool.HasTy whole .bool
  means : ∀ env, (∀ x ∈ vars, ∃ value, pool.evaluate x env = .ok value) →
    (∃ truth, pool.evaluate whole env = .ok (.bool truth)) ∧
      (pool.Accepts env whole ↔ Completes pool bits vars env)
  reaches : ∀ x, pool.Reaches whole x → pool.isVariable x → x ∈ vars

/-- A model that is made from the known bits of variables. -/
structure Inverts (pool : Pool) (vars : List ExprId) (bits : ExprId → List (Option Bool))
    (generate : Bool) (found : Model) : Prop where
  vars_eq : found.bindings.map Binding.var = vars
  bindings : ∀ binding ∈ found.bindings, ∃ ty, pool.node? binding.var = some ⟨ty, .var binding.name⟩ ∧
    (bits binding.var).length = ty.bitSize ∧
      binding.value = ty.decode ((bits binding.var).map fun bit => bit.getD false)
  unconstrained : ∀ x free, (x, free) ∈ found.unconstrained ↔
    x ∈ vars ∧ free = openBits (bits x) ∧ free ≠ []
  none_iff : generate → (found.generator = none ↔ ∀ x ∈ vars, (bits x).all Option.isNone)
  generates : generate → ∀ whole ∈ found.generator, Generates pool vars bits whole
  equates : generate → vars.Nodup → ∀ x ∈ vars, ∀ given, bits x = given.map some → given ≠ [] →
    (∀ other ∈ vars, other ≠ x → (bits other).all Option.isNone) → ∀ ty, pool.HasTy x ty →
      ∃ whole, found.generator = some whole ∧ Equates pool x ty (ty.decode given) whole

/-- Readings of variables make up a model. -/
theorem inverts_of_readings {generator : Option ExprId}
    (each : List.Forall₂ (fun x reading => Reads pool (bits x) generate x reading) vars readings)
    (none : generator = none ↔ readings.flatMap Reading.parts = [])
    (single : ∀ part, readings.flatMap Reading.parts = [part] → generator = some part)
    (conjoins : ∀ whole ∈ generator, Conjoins pool (readings.flatMap Reading.parts) whole) :
    Inverts pool vars bits generate {
      bindings := readings.map Reading.binding
      unconstrained := readings.filterMap fun reading =>
        if reading.free.isEmpty then Option.none else some (reading.binding.var, reading.free)
      generator := generator } := by
  refine ⟨?_, ?_, fun x free => ?_, ?_, ?_, ?_⟩
  · rw [List.map_map, ← List.forall₂_eq_eq_eq, List.forall₂_map_left_iff]
    exact each.flip.imp fun reading x reads => reads.var
  · intro binding member
    obtain ⟨reading, readingMember, rfl⟩ := List.mem_map.mp member
    obtain ⟨x, -, reads⟩ := exists_of_forall₂_of_mem each.flip readingMember
    obtain rfl := reads.var
    exact reads.binding
  · simp only [List.mem_filterMap, Option.ite_none_left_eq_some, List.isEmpty_iff, Option.some.injEq,
      Prod.mk.injEq]
    constructor
    · rintro ⟨reading, readingMember, nonempty, rfl, rfl⟩
      obtain ⟨x, member, reads⟩ := exists_of_forall₂_of_mem each.flip readingMember
      rw [reads.var]
      exact ⟨member, reads.free, nonempty⟩
    · rintro ⟨member, rfl, nonempty⟩
      obtain ⟨reading, readingMember, reads⟩ := exists_of_forall₂_of_mem each member
      exact ⟨reading, readingMember, reads.free ▸ nonempty, reads.var, reads.free⟩
  · rintro rfl
    rw [none, List.flatMap_eq_nil_iff]
    refine (forall_mem_iff_of_forall₂ (each.imp fun x reading reads => ?_)).symm
    exact reads.parts_eq_nil_iff.symm
  · rintro rfl whole isWhole
    have conjoined := conjoins whole isWhole
    refine ⟨conjoined.isBool, fun env bound => ?_, fun x reaches isVariable => ?_⟩
    · obtain ⟨truths, means⟩ := parts_mean each bound
      rw [← means]
      exact conjoined.means env truths
    · obtain ⟨part, partMember, further⟩ := conjoined.reaches x reaches isVariable
      obtain ⟨reading, readingMember, inside⟩ := List.mem_flatMap.mp partMember
      obtain ⟨y, member, reads⟩ := exists_of_forall₂_of_mem each.flip readingMember
      obtain ⟨ty, stored, -, -⟩ := reads.binding
      have reached := (reads.pins rfl ty ⟨_, stored⟩).reaches part inside x further isVariable
      rwa [reached.eq_of_leaf stored rfl]
  · rintro rfl nodup x member given isGiven nonempty others ty hasTy
    obtain ⟨equality, sole, equates⟩ :=
      parts_eq_singleton each nodup member isGiven nonempty others hasTy
    exact ⟨equality, single equality sole, equates⟩

end Readings

/-- An engine's model is read back. -/
theorem invert_yields {workspace : Workspace PassMemory} (generate : Bool) (sound : workspace.Sound)
    (compiles : Compiles compiled workspace.pool constraints)
    (carries : compiled.numbering.Carries model truth) :
    Yields (invert compiled model generate) workspace fun found after =>
      Inverts after.pool compiled.surface (knownBits compiled truth) generate found := by
  have each : ∀ x ∈ compiled.surface, ∀ after, workspace.Advances after →
      Yields (readVariable compiled model generate x) after fun reading last =>
        Reads last.pool (knownBits compiled truth x) generate x reading := by
    intro x member after advances
    obtain ⟨ty, name, lits, stored, found, -, size⟩ := compiles.exists_literals member
    exact readVariable_yields generate (advances.sound sound) (advances.extension stored) found size
      compiles.dense carries
  unfold invert
  refine (Stateful.Yields.mapM (fun x reading (after : Workspace PassMemory) =>
    Reads after.pool (knownBits compiled truth x) generate x reading)
    (fun _ _ _ _ advances reads => reads.mono advances.extension) each).bind ?_
  intro readings middle toMiddle reads
  have bools : ∀ part ∈ readings.flatMap Reading.parts, middle.pool.HasTy part .bool := by
    intro part member
    obtain ⟨reading, readingMember, inside⟩ := List.mem_flatMap.mp member
    obtain ⟨x, -, own⟩ := exists_of_forall₂_of_mem reads.flip readingMember
    exact own.bools part inside
  refine (ofBuild_yields (conjunction_yields bools)).bind ?_
  rintro generator last toLast ⟨none, single, conjoins⟩
  exact Stateful.Yields.pure
    (inverts_of_readings (reads.imp fun _ _ own => own.mono toLast.extension) none single conjoins)

end Solve

end Clausal
