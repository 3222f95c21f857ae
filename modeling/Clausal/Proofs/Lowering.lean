import Mathlib
import Clausal.Proofs.Evaluation
import Clausal.Proofs.Grammars
import Clausal.Proofs.Combination

/-!
# Lowering expressions

`Session.Exact` relates the assignments of a session to the values of expressions.
In every satisfying assignment the literals of a lowered expression have its value,
under the values that are read from the literals of the variables. Values of the
variables that are accepted by what was asserted extend to exactly one satisfying
assignment. Every action of a session keeps this.
-/

namespace Clausal

namespace Session

variable {pool : Pool} {session before after : Session} {truth other : Assignment} {env : Env}
  {e : ExprId} {ty : Ty} {lits : Array Lit} {accepted : Env → Prop}

/-- The variables of a session have the values that are read from their literals. -/
def Agrees (session : Session) (pool : Pool) (truth : Assignment) (env : Env) : Prop :=
  ∀ entry ∈ session.surface, ∀ ty, pool.HasTy entry.1 ty →
    pool.evaluate entry.1 env = .ok (truth.value ty entry.2)

/-- The literals of an expression have its value in every satisfying assignment. -/
structure Represents (session : Session) (pool : Pool) (e : ExprId) (ty : Ty) (lits : Array Lit) :
    Prop where
  hasTy : pool.HasTy e ty
  row : session.Row lits ty
  means : ∀ truth env, session.Satisfied truth → session.Agrees pool truth env →
    pool.evaluate e env = .ok (truth.value ty lits)

/-- The variables of the literals of a session's variables. -/
def surfaceVars (session : Session) : List Nat :=
  session.surface.toList.flatMap fun entry => entry.2.toList.map Lit.var

/-- A session is exact about the values of variables that are accepted. -/
structure Exact (session : Session) (pool : Pool) (accepted : Env → Prop) : Prop where
  closed : session.Closed
  cached : ∀ e lits, session.literals[e]? = some lits → ∃ ty, session.Represents pool e ty lits
  surface : ∀ e lits, (e, lits) ∈ session.surface ↔
    pool.isVariable e ∧ session.literals[e]? = some lits
  apart : session.surfaceVars.Nodup
  sound : ∀ truth env, session.Satisfied truth → session.Agrees pool truth env → accepted env
  complete : ∀ env, (∀ entry ∈ session.surface, ∃ value, pool.evaluate entry.1 env = .ok value) →
    accepted env → ∃ truth, session.Satisfied truth ∧ session.Agrees pool truth env
  unique : ∀ truth other, session.Satisfied truth → session.Satisfied other →
    (∀ entry ∈ session.surface,
      entry.2.toList.map (Lit.holds truth) = entry.2.toList.map (Lit.holds other)) →
    Assignment.AgreesUpTo session.numVars truth other

/-- A later session has all that an earlier one has. -/
structure Extends (before after : Session) : Prop where
  numVars_le : before.numVars ≤ after.numVars
  satisfied : ∀ truth, after.Satisfied truth → before.Satisfied truth
  surface : ∀ entry ∈ before.surface, entry ∈ after.surface
  known : ∀ e ∈ before.literals, e ∈ after.literals

instance : IsPreorder Session Extends where
  refl _ := ⟨le_rfl, fun _ => id, fun _ => id, fun _ => id⟩
  trans _ _ _ earlier later :=
    ⟨earlier.numVars_le.trans later.numVars_le,
      fun truth satisfied => earlier.satisfied truth (later.satisfied truth satisfied),
      fun entry member => later.surface entry (earlier.surface entry member),
      fun e member => later.known e (earlier.known e member)⟩

theorem Extends.agrees (extension : before.Extends after) (agrees : after.Agrees pool truth env) :
    before.Agrees pool truth env :=
  fun entry member => agrees entry (extension.surface entry member)

theorem Represents.later (represents : before.Represents pool e ty lits)
    (extension : before.Extends after) : after.Represents pool e ty lits :=
  ⟨represents.hasTy, represents.row.later extension.numVars_le, fun truth env satisfied agrees =>
    represents.means truth env (extension.satisfied truth satisfied) (extension.agrees agrees)⟩

theorem Defines.extends (defines : before.Defines after) : before.Extends after :=
  ⟨defines.numVars_le, defines.satisfied, fun _ member => defines.surface_eq ▸ member,
    fun _ member => defines.literals_eq ▸ member⟩

theorem AgreesUpTo.value_eq (row : session.Row lits ty)
    (agree : Assignment.AgreesUpTo session.numVars truth other) :
    truth.value ty lits = other.value ty lits := by
  unfold Assignment.value
  rw [List.map_congr_left fun lit member =>
    agree.holds_eq (row.ranged lit (Array.mem_toList_iff.mp member))]

/-- The literals of the variables are those that were remembered for them. -/
theorem Exact.represents_surface (exact : session.Exact pool accepted)
    (member : (e, lits) ∈ session.surface) : ∃ ty, session.Represents pool e ty lits :=
  exact.cached e lits ((exact.surface e lits).mp member).2

theorem Exact.le_of_mem_surfaceVars {number : Nat} (exact : session.Exact pool accepted)
    (member : number ∈ session.surfaceVars) : number ≤ session.numVars := by
  obtain ⟨⟨e, lits⟩, entryMember, inside⟩ := List.mem_flatMap.mp member
  obtain ⟨lit, litMember, rfl⟩ := List.mem_map.mp inside
  obtain ⟨ty, represents⟩ := exact.represents_surface (Array.mem_toList_iff.mp entryMember)
  exact represents.row.ranged lit (Array.mem_toList_iff.mp litMember)

/-- What is read from the variables depends on the variables of the session only. -/
theorem Exact.agrees_of_agreesUpTo (exact : session.Exact pool accepted)
    (agree : Assignment.AgreesUpTo session.numVars truth other)
    (agrees : session.Agrees pool truth env) : session.Agrees pool other env := by
  rintro ⟨e, lits⟩ member ty hasTy
  obtain ⟨ownTy, represents⟩ := exact.represents_surface member
  obtain rfl := hasTy.unique represents.hasTy
  rw [agrees _ member ty hasTy, AgreesUpTo.value_eq represents.row agree]

/-- New definitions change nothing. -/
theorem Exact.of_defines (exact : before.Exact pool accepted) (defines : before.Defines after) :
    after.Exact pool accepted := by
  have extension := defines.extends
  have sameAgrees : ∀ truth env, after.Agrees pool truth env ↔ before.Agrees pool truth env := by
    intro truth env
    unfold Agrees
    rw [defines.surface_eq]
  refine ⟨defines.closed exact.closed, ?_, ?_, ?_, ?_, ?_, ?_⟩
  · intro e lits found
    rw [defines.literals_eq] at found
    obtain ⟨ty, represents⟩ := exact.cached e lits found
    exact ⟨ty, represents.later extension⟩
  · intro e lits
    rw [defines.surface_eq, defines.literals_eq]
    exact exact.surface e lits
  · rw [surfaceVars, defines.surface_eq]
    exact exact.apart
  · exact fun truth env satisfied agrees =>
      exact.sound truth env (defines.satisfied truth satisfied) (extension.agrees agrees)
  · intro env bound accepts
    rw [defines.surface_eq] at bound
    obtain ⟨truth, satisfied, agrees⟩ := exact.complete env bound accepts
    obtain ⟨later, laterSatisfied, agree⟩ := defines.extend truth satisfied
    exact ⟨later, laterSatisfied,
      (sameAgrees later env).mpr (exact.agrees_of_agreesUpTo agree agrees)⟩
  · intro truth other satisfied otherSatisfied same
    rw [defines.surface_eq] at same
    exact defines.unique truth other satisfied otherSatisfied (exact.unique truth other
      (defines.satisfied truth satisfied) (defines.satisfied other otherSatisfied) same)

/-- The literals of an expression other than a variable may be remembered. -/
theorem Exact.remember (exact : session.Exact pool accepted)
    (represents : session.Represents pool e ty lits) (notVariable : ¬pool.isVariable e) :
    { session with literals := session.literals.insert e lits }.Exact pool accepted := by
  refine ⟨⟨exact.closed.stored, exact.closed.ranged, exact.closed.top⟩, ?_, ?_, exact.apart,
    exact.sound, exact.complete, exact.unique⟩
  · intro other otherLits found
    simp only [Std.HashMap.getElem?_insert] at found
    split at found
    · rename_i same
      obtain rfl := eq_of_beq same
      cases found
      exact ⟨ty, represents.hasTy, ⟨represents.row.ranged, represents.row.size_eq⟩, represents.means⟩
    · obtain ⟨otherTy, otherRepresents⟩ := exact.cached other otherLits found
      exact ⟨otherTy, otherRepresents.hasTy,
        ⟨otherRepresents.row.ranged, otherRepresents.row.size_eq⟩, otherRepresents.means⟩
  · intro other otherLits
    simp only [Std.HashMap.getElem?_insert]
    split
    · rename_i same
      obtain rfl := eq_of_beq same
      simp [exact.surface, notVariable]
    · exact exact.surface other otherLits

end Session

/-- The literals of `count` variables behind the first `start`. -/
def Lit.block (start count : Nat) : List Lit :=
  (List.range count).map fun index => .positive (start + index + 1) (Nat.succ_pos _)

namespace Lit

variable {start count : Nat}

theorem block_succ (start count : Nat) :
    block start (count + 1) = .positive (start + 1) (Nat.succ_pos _) :: block (start + 1) count := by
  unfold block
  rw [List.range_succ_eq_map, List.map_cons, List.map_map]
  refine congrArg _ (List.map_congr_left fun index _ => ?_)
  simp only [Function.comp_apply, positive, Lit.mk.injEq]
  push_cast
  ring

@[simp] theorem length_block : (block start count).length = count := by
  simp [block]

theorem var_of_mem_block {lit : Lit} (member : lit ∈ block start count) :
    start < lit.var ∧ lit.var ≤ start + count := by
  obtain ⟨index, inside, rfl⟩ := List.mem_map.mp member
  rw [List.mem_range] at inside
  rw [var_positive]
  omega

theorem nodup_block : ((block start count).map var).Nodup := by
  unfold block
  rw [List.map_map]
  refine List.Nodup.map (fun left right same => ?_) List.nodup_range
  simpa using same

/-- The variables of a block have the truth values of its literals. -/
theorem eq_of_map_block_eq {truth other : Assignment} {number : Nat}
    (same : (block start count).map (holds truth) = (block start count).map (holds other))
    (above : start < number) (inside : number ≤ start + count) : truth number = other number := by
  have member : positive number (by omega) ∈ block start count := by
    refine List.mem_map.mpr ⟨number - start - 1, List.mem_range.mpr (by omega), ?_⟩
    have sum : start + (number - start - 1) + 1 = number := by omega
    simp only [sum]
  simpa using List.map_inj_left.mp same _ member

/-- Assign bits to the variables of a block. -/
theorem exists_block_assignment (truth : Assignment) {bits : List Bool} (length : bits.length = count) :
    ∃ later, Assignment.AgreesUpTo start truth later ∧ (block start count).map (holds later) = bits := by
  refine ⟨fun number => if number ≤ start then truth number else bits.getD (number - start - 1) false,
    fun number _ below => (if_pos below).symm, ?_⟩
  apply List.ext_getElem
  · simpa using length.symm
  · intro index left right
    simp [block, Nat.add_assoc, right]

end Lit

namespace Session

variable {pool : Pool} {session after : Session} {e : ExprId} {ty : Ty} {accepted : Env → Prop}

/-- A variable has new literals, one for every bit. -/
def withVariable (session : Session) (e : ExprId) (lits : Array Lit) : Session :=
  { session with
    surface := session.surface.push (e, lits), literals := session.literals.insert e lits }

section WithVariable

variable {name : String} {lits : Array Lit}

theorem mem_surface_withVariable {entry : ExprId × Array Lit} :
    entry ∈ (session.withVariable e lits).surface ↔ entry ∈ session.surface ∨ entry = (e, lits) :=
  Array.mem_push

theorem Emits.extends_withVariable {count : Nat} (made : session.Emits after count fun _ => True) :
    session.Extends (after.withVariable e lits) := by
  refine ⟨?_, fun truth satisfied => ((made.satisfied_iff truth).mp satisfied).1, ?_, ?_⟩
  · exact made.numVars_eq ▸ Nat.le_add_right _ _
  · exact fun entry member => mem_surface_withVariable.mpr (.inl (made.surface_eq ▸ member))
  · intro other member
    rw [← made.literals_eq] at member
    exact Std.HashMap.mem_insert.mpr (.inr member)

/-- The literals of a new variable have its value. -/
theorem represents_withVariable (hasTy : pool.HasTy e ty)
    (made : session.Emits after ty.bitSize fun _ => True)
    (block : lits.toList = Lit.block session.numVars ty.bitSize) :
    (after.withVariable e lits).Represents pool e ty lits := by
  refine ⟨hasTy, ⟨fun lit member => ?_, ?_⟩, fun truth env _ agrees => ?_⟩
  · have inside := Lit.var_of_mem_block (block ▸ Array.mem_toList_iff.mpr member)
    exact inside.2.trans made.numVars_eq.ge
  · rw [← Array.length_toList, block, Lit.length_block]
  · exact agrees (e, lits) (mem_surface_withVariable.mpr (.inr rfl)) ty hasTy

/-- A variable that was not lowered may be given new literals. -/
theorem Exact.withVariable (exact : session.Exact pool accepted) (typed : pool.WellTyped)
    (stored : pool.node? e = some ⟨ty, .var name⟩) (missing : session.literals[e]? = none)
    (made : session.Emits after ty.bitSize fun _ => True)
    (block : lits.toList = Lit.block session.numVars ty.bitSize) :
    (after.withVariable e lits).Exact pool accepted := by
  have extension : session.Extends (after.withVariable e lits) := made.extends_withVariable
  have hasTy : pool.HasTy e ty := ⟨_, stored⟩
  have found : ∀ other : ExprId, (after.withVariable e lits).literals[other]? =
      if e == other then some lits else session.literals[other]? := by
    intro other
    rw [← made.literals_eq]
    exact Std.HashMap.getElem?_insert
  refine ⟨⟨made.closed.stored, made.closed.ranged, made.closed.top⟩, ?_, ?_, ?_, ?_, ?_, ?_⟩
  · intro other otherLits known
    rw [found] at known
    split at known
    · rename_i same
      obtain rfl := eq_of_beq same
      cases known
      exact ⟨ty, represents_withVariable hasTy made block⟩
    · obtain ⟨otherTy, represents⟩ := exact.cached other otherLits known
      exact ⟨otherTy, represents.later extension⟩
  · intro other otherLits
    rw [mem_surface_withVariable, made.surface_eq, exact.surface, found]
    by_cases same : e = other
    · subst same
      simp [missing, Pool.isVariable, Pool.variableName?, stored, eq_comm]
    · simp [same, Ne.symm same]
  · have vars : (after.withVariable e lits).surfaceVars =
        session.surfaceVars ++ (Lit.block session.numVars ty.bitSize).map Lit.var := by
      simp [surfaceVars, Session.withVariable, made.surface_eq, block]
    rw [vars]
    refine List.nodup_append.mpr ⟨exact.apart, Lit.nodup_block, ?_⟩
    intro left leftMember right rightMember same
    obtain ⟨lit, litMember, rfl⟩ := List.mem_map.mp rightMember
    have below := exact.le_of_mem_surfaceVars leftMember
    have above := (Lit.var_of_mem_block litMember).1
    omega
  · exact fun truth env satisfied agrees =>
      exact.sound truth env (extension.satisfied truth satisfied) (extension.agrees agrees)
  · intro env bound accepts
    obtain ⟨value, evaluated⟩ := bound (e, lits) (mem_surface_withVariable.mpr (.inr rfl))
    have admitted := typed.admits hasTy evaluated
    obtain ⟨truth, satisfied, agrees⟩ :=
      exact.complete env (fun entry member => bound entry (extension.surface entry member)) accepts
    obtain ⟨later, agree, bits⟩ :=
      Lit.exists_block_assignment truth (Ty.length_encode ty value admitted)
    refine ⟨later, (made.satisfied_iff later).mpr
      ⟨exact.closed.satisfied_of_agrees satisfied agree, trivial⟩, fun entry member => ?_⟩
    rcases mem_surface_withVariable.mp member with old | rfl
    · exact exact.agrees_of_agreesUpTo agree agrees entry (made.surface_eq ▸ old)
    · intro otherTy otherHasTy
      obtain rfl := otherHasTy.unique hasTy
      rw [Assignment.value, block, bits, Ty.decode_encode otherTy value admitted, evaluated]
  · intro truth other satisfied otherSatisfied same number positive inside
    have old := exact.unique truth other (extension.satisfied truth satisfied)
      (extension.satisfied other otherSatisfied) fun entry member =>
        same entry (extension.surface entry member)
    by_cases below : number ≤ session.numVars
    · exact old number positive below
    · have new := same (e, lits) (mem_surface_withVariable.mpr (.inr rfl))
      rw [block] at new
      exact Lit.eq_of_map_block_eq new (Nat.lt_of_not_le below) (inside.trans made.numVars_eq.le)

end WithVariable

end Session

namespace Lower

variable {pool : Pool} {session : Session} {e : ExprId} {ty : Ty} {accepted : Env → Prop}

attribute [local irreducible] Lit.ofVar

/-- The literals of an expression that was not lowered before. -/
def lowerNode (pool : Pool) (e : ExprId) : Lower (Array Lit) :=
  match pool.node? e with
  | some ⟨ty, .var _⟩ => variableBits e ty
  | some ⟨ty, .const value⟩ => constantBits ty value
  | some ⟨_, .apply op operands⟩ =>
    if supports op then do
      let lowered ← operands.mapM fun operand => do
        let lits ← lower pool operand
        return (operand, lits)
      combine pool op lowered
    else Stateful.fail (.unsupported op)
  | none => Stateful.breach .outOfRange

theorem lower_eq (pool : Pool) (e : ExprId) :
    lower pool e = (do
      match (← get).literals[e]? with
      | some lits => return lits
      | none =>
        let lits ← lowerNode pool e
        remember e lits
        return lits) := by
  rw [lower]
  refine bind_congr fun state => ?_
  cases state.literals[e]? with
  | some lits => rfl
  | none =>
    unfold lowerNode
    dsimp only
    split
    · rename_i stored
      rw [stored]
    · rename_i stored
      rw [stored]
    · rename_i op operands stored
      rw [stored]
      dsimp only
      split
      · rw [← mapM_attach operands]
        simp only [bind_assoc]
      · rfl
    · rename_i stored
      rw [stored]

instance (entry : ExprId × Array Lit) :
    Grows (modify fun session => { session with surface := session.surface.push entry }) :=
  ⟨fun session => le_refl session.numVars⟩

instance (e : ExprId) (ty : Ty) : Grows (variableBits e ty) := by
  unfold variableBits
  infer_instance

instance (ty : Ty) (value : Value) : Grows (constantBits ty value) := by
  unfold constantBits
  infer_instance

instance (e : ExprId) (lits : Array Lit) : Grows (remember e lits) :=
  ⟨fun session => le_refl session.numVars⟩

instance grows_lower (pool : Pool) (e : ExprId) : Grows (lower pool e) := by
  induction index : e.index using Nat.strong_induction_on generalizing e with
  | h index inductionHypothesis =>
    have node : Grows (lowerNode pool e) := by
      unfold lowerNode
      split
      · infer_instance
      · infer_instance
      · rename_i op operands stored
        split
        · have each : Grows (operands.mapM fun operand => do
              let lits ← lower pool operand
              return (operand, lits)) := by
            refine grows_mapM fun operand member => ?_
            have lowered := inductionHypothesis operand.index
              (index ▸ Pool.index_lt_of_node? stored member) operand rfl
            infer_instance
          infer_instance
        · infer_instance
      · infer_instance
    rw [lower_eq]
    have rest : ∀ found : Option (Array Lit), Grows (match found with
        | some lits => return lits
        | none => do
          let lits ← lowerNode pool e
          remember e lits
          return lits) := by
      rintro (_ | lits) <;> infer_instance
    infer_instance

/-- New variables are numbered one after the other. -/
theorem mapM_fresh_succeeds {α : Type} (items : List α) (closed : session.Closed) :
    Succeeds (items.mapM fun _ => fresh) session fun lits after =>
      session.Emits after items.length (fun _ => True) ∧
        lits = Lit.block session.numVars items.length := by
  induction items generalizing session with
  | nil => exact Runs.pure fun _ => ⟨Session.Emits.refl closed, rfl⟩
  | cons item items inductionHypothesis =>
    rw [List.mapM_cons]
    refine (fresh_succeeds closed).bind ?_
    rintro _ middle _ ⟨made, rfl⟩
    refine (inductionHypothesis made.closed).bind ?_
    rintro _ after _ ⟨others, rfl⟩
    refine Runs.pure fun _ => ⟨?_, ?_⟩
    · rw [List.length_cons, Nat.add_comm]
      exact (made.trans others).congr fun _ => and_self_iff
    · rw [List.length_cons, Lit.block_succ, made.numVars_eq]

/-- What lowering an expression does to a session. -/
structure Advances (pool : Pool) (accepted : Env → Prop) (before after : Session) : Prop where
  extension : before.Extends after
  exact : before.Exact pool accepted → after.Exact pool accepted

instance : IsPreorder Session (Advances pool accepted) where
  refl session := ⟨refl session, id⟩
  trans _ _ _ earlier later :=
    ⟨IsTrans.trans _ _ _ earlier.extension later.extension, fun holds => later.exact (earlier.exact holds)⟩

/-- New definitions are an advance. -/
theorem advances_of_defines {before after : Session} (defines : before.Defines after) :
    Advances pool accepted before after :=
  ⟨defines.extends, fun holds => holds.of_defines defines⟩

/-- An expression is lowered: the session advances and has literals for it. -/
structure Lowers (pool : Pool) (accepted : Env → Prop) (before : Session) (e : ExprId)
    (lits : Array Lit) (after : Session) : Prop where
  advances : Advances pool accepted before after
  found : after.literals[e]? = some lits
  represents : ∃ ty, after.Represents pool e ty lits

/-- The literals of an expression other than a variable are remembered. -/
theorem lowers_remember {before : Session} {lits : Array Lit}
    (advances : Advances pool accepted before session)
    (represents : session.Represents pool e ty lits) (notVariable : ¬pool.isVariable e) :
    Lowers pool accepted before e lits
      { session with literals := session.literals.insert e lits } := by
  have extension : session.Extends { session with literals := session.literals.insert e lits } :=
    ⟨le_rfl, fun _ => id, fun _ => id, fun _ known => Std.HashMap.mem_insert.mpr (.inr known)⟩
  refine ⟨⟨IsTrans.trans _ _ _ advances.extension extension, fun holds => ?_⟩,
    Std.HashMap.getElem?_insert_self, ty, represents.later extension⟩
  exact (advances.exact holds).remember represents notVariable

/-- The operands have the values that are read from their literals. -/
theorem evaluate_operands {truth : Assignment} {env : Env} {types : List Ty}
    {lowered : List (ExprId × Array Lit)}
    (each : List.Forall₂ (fun ty operand => session.Represents pool operand.1 ty operand.2) types
      lowered)
    (satisfied : session.Satisfied truth) (agrees : session.Agrees pool truth env) :
    List.Forall₂ (fun operand value => pool.evaluate operand env = .ok value)
      (lowered.map Prod.fst) (operandValues truth types lowered) := by
  induction each with
  | nil => exact .nil
  | cons represents _ inductionHypothesis =>
    exact .cons (represents.means truth env satisfied agrees) inductionHypothesis

/-- Literals that compute an operator represent its application. -/
theorem represents_apply {op : Op} {types : List Ty} {lowered : List (ExprId × Array Lit)}
    {lits : Array Lit} (stored : pool.node? e = some ⟨ty, .apply op (lowered.map Prod.fst)⟩)
    (each : List.Forall₂ (fun ty operand => session.Represents pool operand.1 ty operand.2) types
      lowered)
    (computes : Computes op types lowered ty lits session) : session.Represents pool e ty lits := by
  refine ⟨⟨_, stored⟩, computes.1, fun truth env satisfied agrees => ?_⟩
  exact (Pool.evaluate_apply stored).mpr
    ⟨_, evaluate_operands each satisfied agrees, computes.2 truth satisfied⟩

theorem lower_var_runs {name : String} {refused : LowerError → Session → Prop}
    (typed : pool.WellTyped) (stored : pool.node? e = some ⟨ty, .var name⟩)
    (exact : session.Exact pool accepted) (missing : session.literals[e]? = none) :
    Runs (do let lits ← variableBits e ty; remember e lits; return lits) session
      (Lowers pool accepted session e) refused := by
  unfold variableBits
  simp only [bind_assoc, pure_bind]
  refine (Succeeds.mono (mapM_fresh_succeeds _ exact.closed) fun _ _ _ => id).bind ?_
  rintro _ after _ ⟨made, rfl⟩
  rw [List.length_range] at made ⊢
  refine Runs.change (Runs.change (Runs.pure fun _ => ?_))
  set lits := (Lit.block session.numVars ty.bitSize).toArray
  change Lowers pool accepted session e lits (after.withVariable e lits)
  exact ⟨⟨made.extends_withVariable, fun holds => holds.withVariable typed stored missing made rfl⟩,
    Std.HashMap.getElem?_insert_self, ty, Session.represents_withVariable ⟨_, stored⟩ made rfl⟩

theorem lower_const_runs {value : Value} {refused : LowerError → Session → Prop}
    (stored : pool.node? e = some ⟨ty, .const value⟩) (admitted : ty.admits value)
    (exact : session.Exact pool accepted) :
    Runs (do let lits ← constantBits ty value; remember e lits; return lits) session
      (Lowers pool accepted session e) refused := by
  refine (Succeeds.mono (constantBits_succeeds exact.closed admitted) fun _ _ _ => id).bind ?_
  rintro lits after _ ⟨defines, size, tracks⟩
  have represents : after.Represents pool e ty lits := by
    refine ⟨⟨_, stored⟩, ⟨fun lit member => ?_, size⟩, fun truth env satisfied _ => ?_⟩
    · exact tracks.ranged lit (Array.mem_toList_iff.mpr member)
    · rw [Assignment.value, tracks.means truth satisfied, Ty.decode_encode ty value admitted,
        Pool.evaluate_const stored]
  refine Runs.change (Runs.pure fun _ => ?_)
  refine lowers_remember (advances_of_defines defines) represents ?_
  simp [Pool.isVariable, Pool.variableName?, stored]

/-- Operands are lowered from left to right, unless one has an operator without
clauses. -/
theorem lower_operands_runs {operands : List ExprId} {refused : LowerError → Session → Prop}
    (exact : session.Exact pool accepted) (live : session.Live)
    (each : ∀ operand ∈ operands, ∀ after : Session, after.Exact pool accepted → after.Live →
      Runs (lower pool operand) after (Lowers pool accepted after operand) fun _ last =>
        ¬pool.Plain operand ∧ Advances pool accepted after last)
    (refusals : ∀ operand ∈ operands, ¬pool.Plain operand → ∀ cause after,
      Advances pool accepted session after → refused cause after) :
    Runs (operands.mapM fun operand => do let lits ← lower pool operand; return (operand, lits))
      session (fun lowered after => Advances pool accepted session after ∧
        lowered.map Prod.fst = operands ∧
          ∀ operand ∈ lowered, ∃ ty, after.Represents pool operand.1 ty operand.2) refused := by
  refine Runs.mono (Runs.mapM (Advances pool accepted) (fun operand pair after =>
    pair.1 = operand ∧ ∃ ty, after.Represents pool operand ty pair.2) ?_ live ?_) ?_ fun _ _ _ => id
  · rintro operand pair before after advances ⟨same, ty, represents⟩
    exact ⟨same, ty, represents.later advances.extension⟩
  · intro operand member after afterLive advances
    have lowered := each operand member after (advances.exact exact) afterLive
    refine (lowered.mono (fun _ _ _ => id) ?_).bind ?_
    · rintro cause last _ ⟨notPlain, further⟩
      exact refusals operand member notPlain cause last (IsTrans.trans _ _ _ advances further)
    · exact fun lits last _ lowers => Runs.pure fun _ => ⟨lowers.advances, rfl, lowers.represents⟩
  · rintro lowered after _ ⟨advances, all⟩
    refine ⟨advances, ?_, fun operand member => ?_⟩
    · exact (List.forall₂_eq_eq_eq ▸ List.forall₂_map_left_iff.mpr
        (all.flip.imp fun _ _ holds => holds.1) : lowered.map Prod.fst = operands)
    · obtain ⟨_, -, rfl, represents⟩ := exists_of_forall₂_of_mem all.flip member
      exact represents

/-- A stored expression is lowered, unless it has an operator without clauses. -/
theorem lower_runs (typed : pool.WellTyped) (isStored : pool.Has e)
    (exact : session.Exact pool accepted) (live : session.Live) :
    Runs (lower pool e) session (Lowers pool accepted session e) fun _ after =>
      ¬pool.Plain e ∧ Advances pool accepted session after := by
  induction isStored using Pool.Has.induction generalizing session with
  | step e node stored inductionHypothesis =>
    rw [lower_eq]
    refine Runs.get ?_
    cases missing : session.literals[e]? with
    | some lits => exact Runs.pure fun _ => ⟨refl session, missing, exact.cached e lits missing⟩
    | none =>
      obtain ⟨ty, form⟩ := node
      unfold lowerNode
      rw [stored]
      cases form with
      | var name => exact lower_var_runs typed stored exact missing
      | const value => exact lower_const_runs stored (typed.fits stored) exact
      | apply op operands =>
        dsimp only
        split
        · rename_i supported
          rw [bind_assoc]
          refine (lower_operands_runs exact live (fun operand member after afterExact afterLive =>
            inductionHypothesis operand member afterExact afterLive) ?_).bind ?_
          · intro operand member notPlain _ after advances
            exact ⟨fun plain => notPlain (((Pool.everywhere_apply stored).mp plain).2 operand member), advances⟩
          rintro lowered middle middleLive ⟨advances, rfl, represented⟩
          obtain ⟨types, hasTys, opTyped⟩ := (typed.fits stored).typed
          have each : List.Forall₂ (fun ty operand => middle.Represents pool operand.1 ty operand.2)
              types lowered := by
            refine (forall₂_imp_of_mem (List.forall₂_map_left_iff.mp hasTys) ?_).flip
            intro operand member operandTy hasTy
            obtain ⟨ownTy, represents⟩ := represented operand member
            exact hasTy.unique represents.hasTy ▸ represents
          refine (Succeeds.mono (combine_succeeds (advances.exact exact).closed middleLive opTyped
            supported (each.imp fun _ _ represents => represents.hasTy)
            (each.imp fun _ _ represents => represents.row)) fun _ _ _ => id).bind ?_
          rintro lits after _ ⟨defines, computes⟩
          have represents := represents_apply stored
            (each.imp fun _ _ represents => represents.later defines.extends) computes
          refine Runs.change (Runs.pure fun _ => ?_)
          refine lowers_remember (IsTrans.trans _ _ _ advances (advances_of_defines defines)) represents ?_
          simp [Pool.isVariable, Pool.variableName?, stored]
        · rename_i unsupported
          refine Runs.bind (Runs.fail fun _ => ⟨fun plain => ?_, refl session⟩)
            fun _ _ _ impossible => False.elim impossible
          exact unsupported ((Pool.everywhere_apply stored).mp plain).1.1

end Lower

end Clausal
