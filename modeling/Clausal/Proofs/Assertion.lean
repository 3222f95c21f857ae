import Mathlib
import Clausal.Proofs.History
import Clausal.Proofs.Lowering

/-!
# Assertions

Asserting an expression narrows a session down to the values of variables under
which the expression is true. `Session.readBack` reads such values from an assignment.
-/

namespace Clausal

namespace Session

variable {pool : Pool} {before after session : Session} {accepted : Env → Prop}

/-- A later session demands more of the values of variables. -/
structure Asserts (pool : Pool) (accepted : Env → Prop) (before : Session) (demand : Env → Prop)
    (after : Session) : Prop where
  extension : before.Extends after
  exact : after.Exact pool fun env => accepted env ∧ demand env

theorem Exact.congr {other : Env → Prop} (exact : session.Exact pool accepted)
    (same : ∀ env, accepted env ↔ other env) : session.Exact pool other :=
  (funext fun env => propext (same env)) ▸ exact

/-- A clause that is true exactly when a demand is met asserts it. -/
theorem Exact.asserts {condition : Assignment → Prop} (demand : Env → Prop)
    (exact : before.Exact pool accepted) (emits : before.Emits after 0 condition)
    (means : ∀ truth env, before.Satisfied truth → before.Agrees pool truth env →
      (condition truth ↔ demand env)) : Asserts pool accepted before demand after := by
  have extension : before.Extends after :=
    ⟨emits.numVars_eq.ge, fun truth satisfied => ((emits.satisfied_iff truth).mp satisfied).1,
      fun _ member => emits.surface_eq ▸ member, fun _ member => emits.literals_eq ▸ member⟩
  refine ⟨extension, emits.closed, ?_, ?_, ?_, ?_, ?_, ?_⟩
  · intro e lits found
    rw [emits.literals_eq] at found
    obtain ⟨ty, represents⟩ := exact.cached e lits found
    exact ⟨ty, represents.later extension⟩
  · intro e lits
    rw [emits.surface_eq, emits.literals_eq]
    exact exact.surface e lits
  · rw [surfaceVars, emits.surface_eq]
    exact exact.apart
  · intro truth env satisfied agrees
    obtain ⟨earlier, holds⟩ := (emits.satisfied_iff truth).mp satisfied
    have earlierAgrees := extension.agrees agrees
    exact ⟨exact.sound truth env earlier earlierAgrees, (means truth env earlier earlierAgrees).mp holds⟩
  · rintro env bound ⟨accepts, demanded⟩
    rw [emits.surface_eq] at bound
    obtain ⟨truth, satisfied, agrees⟩ := exact.complete env bound accepts
    have holds := (means truth env satisfied agrees).mpr demanded
    refine ⟨truth, (emits.satisfied_iff truth).mpr ⟨satisfied, holds⟩, ?_⟩
    unfold Agrees
    rwa [emits.surface_eq]
  · intro truth other satisfied otherSatisfied same
    rw [emits.surface_eq] at same
    rw [emits.numVars_eq]
    exact exact.unique truth other (extension.satisfied truth satisfied)
      (extension.satisfied other otherSatisfied) same

end Session

namespace Pool

variable {pool : Pool} {e : ExprId} {env : Env}

/-- An expression is true. -/
def Accepts (pool : Pool) (env : Env) (e : ExprId) : Prop :=
  pool.evaluate e env = .ok (.bool true)

/-- Values of variables extend to all variables of a pool. -/
theorem WellTyped.exists_completion (typed : pool.WellTyped) (env : Env) :
    ∃ whole : Env, ∀ {x ty name}, pool.node? x = some ⟨ty, .var name⟩ →
      (∃ value, whole name = some value ∧ ty.admits value) ∧
        ∀ value, env name = some value → ty.admits value → whole name = some value := by
  have each : ∀ name, ∃ own : Option Value, ∀ {x ty}, pool.node? x = some ⟨ty, .var name⟩ →
      (∃ value, own = some value ∧ ty.admits value) ∧
        ∀ value, env name = some value → ty.admits value → own = some value := by
    intro name
    by_cases declared : ∃ x ty, pool.node? x = some ⟨ty, .var name⟩
    · obtain ⟨x, ty, stored⟩ := declared
      have unique : ∀ {other otherTy}, pool.node? other = some ⟨otherTy, .var name⟩ → otherTy = ty := by
        intro other otherTy otherStored
        obtain rfl := typed.eq_of_name_eq (variableName?_eq_some_iff.mpr ⟨ty, stored⟩)
          (variableName?_eq_some_iff.mpr ⟨otherTy, otherStored⟩)
        rw [stored] at otherStored
        simp_all
      by_cases given : ∃ value, env name = some value ∧ ty.admits value
      · obtain ⟨value, isValue, admitted⟩ := given
        refine ⟨some value, fun {other otherTy} otherStored => ?_⟩
        obtain rfl := unique otherStored
        exact ⟨⟨value, rfl, admitted⟩, fun own isOwn _ => isValue.symm.trans isOwn⟩
      · refine ⟨some (ty.decode []), fun {other otherTy} otherStored => ?_⟩
        obtain rfl := unique otherStored
        exact ⟨⟨_, rfl, Ty.admits_decode otherTy []⟩, fun own isOwn admitted =>
          (given ⟨own, isOwn, admitted⟩).elim⟩
    · exact ⟨none, fun {x ty} stored => (declared ⟨x, ty, stored⟩).elim⟩
  choose whole complete using each
  exact ⟨whole, fun {x ty name} stored => complete name stored⟩

/-- The disjunction of two variables and the negation of the first are both true for one
pair of values. -/
theorem StoresDisjunction.accepts_iff {x y either denial : ExprId}
    (stores : pool.StoresDisjunction x y either denial) :
    (∀ e ∈ [either, denial], pool.Accepts env e) ↔
      env "x" = some (.bool false) ∧ env "y" = some (.bool true) := by
  simp only [List.forall_mem_cons, Accepts, evaluate_apply stores.either, evaluate_apply stores.denial,
    List.forall₂_cons_left_iff, List.forall₂_nil_left_iff, evaluate_var stores.first,
    evaluate_var stores.second]
  constructor
  · rintro ⟨⟨_, ⟨a, _, ⟨aGiven, aBool⟩, ⟨b, _, ⟨bGiven, bBool⟩, rfl, rfl⟩, rfl⟩, disjunction⟩,
      ⟨_, ⟨c, _, ⟨cGiven, -⟩, rfl, rfl⟩, negation⟩, -⟩
    obtain rfl := Option.some.inj (aGiven.symm.trans cGiven)
    obtain ⟨first, rfl⟩ := Ty.admits_bool_iff.mp aBool
    obtain ⟨second, rfl⟩ := Ty.admits_bool_iff.mp bBool
    cases first with
    | true => cases negation
    | false =>
      cases second with
      | true => exact ⟨aGiven, bGiven⟩
      | false => cases disjunction
  · rintro ⟨isFalse, isTrue⟩
    simp only [isFalse, isTrue]
    exact ⟨⟨_, ⟨_, _, ⟨rfl, rfl⟩, ⟨_, _, ⟨rfl, rfl⟩, rfl, rfl⟩, rfl⟩, rfl⟩,
      ⟨_, ⟨_, _, ⟨rfl, rfl⟩, rfl, rfl⟩, rfl⟩, by simp⟩

theorem allTrue_eq_true_iff {values : List Value} :
    allTrue values = .ok true ↔ ∀ value ∈ values, value = .bool true := by
  induction values with
  | nil => simp [allTrue]
  | cons value values inductionHypothesis =>
    rw [List.forall_mem_cons, ← inductionHypothesis]
    cases value with
    | bool truth => cases truth <;> simp [allTrue]
    | uint number | tuple fields => simp [allTrue]

/-- A conjunction is true if all operands are. -/
theorem accepts_and {ty : Ty} {operands : List ExprId}
    (stored : pool.node? e = some ⟨ty, .apply .and operands⟩) :
    pool.Accepts env e ↔ ∀ operand ∈ operands, pool.Accepts env operand := by
  have evaluates : ∀ values, Op.eval .and values = .ok (.bool true) ↔
      ∀ value ∈ values, value = .bool true := by
    intro values
    rw [← allTrue_eq_true_iff]
    cases all : allTrue values <;> simp [Op.eval, all, bind, Except.bind, pure, Except.pure]
  unfold Accepts
  simp only [evaluate_apply stored, evaluates]
  constructor
  · rintro ⟨values, each, allTrue⟩ operand member
    obtain ⟨value, valueMember, evaluated⟩ := exists_of_forall₂_of_mem each member
    rw [evaluated, allTrue value valueMember]
  · intro all
    refine ⟨operands.map fun _ => .bool true, ?_, by simp⟩
    rw [List.forall₂_map_right_iff, List.forall₂_same]
    exact all

end Pool

namespace Lower

variable {pool : Pool} {session : Session} {e : ExprId} {accepted : Env → Prop}

attribute [local irreducible] Lit.ofVar

/-- The clauses that make a boolean expression true. -/
def assertNode (pool : Pool) (e : ExprId) : Lower Unit :=
  match pool.node? e with
  | some ⟨_, .apply .and operands⟩ => do
    if (← get).flatten then operands.forM (assert pool) else assertLiteral pool e
  | some ⟨_, .apply .or operands⟩ | some ⟨_, .apply .clause operands⟩ => do
    let lits ← operands.mapM (literal pool)
    addClause lits
  | _ => assertLiteral pool e

theorem assert_eq (pool : Pool) (e : ExprId) :
    assert pool e = (do
      let ty ← Stateful.ofExcept (pool.ty e)
      if ty.isBool then assertNode pool e else Stateful.fail (.notBoolean ty)) := by
  rw [assert]
  refine bind_congr fun ty => ?_
  unfold assertNode
  split
  · split
    · rename_i operands stored
      rw [stored]
      refine bind_congr fun session => ?_
      split
      · exact forM_attach operands (assert pool)
      · rfl
    · rename_i stored
      rw [stored]
    · rename_i stored
      rw [stored]
    · rename_i notAnd notOr notClause
      split
      · exact (notAnd _ _ ‹_›).elim
      · exact (notOr _ _ ‹_›).elim
      · exact (notClause _ _ ‹_›).elim
      · rfl
  · rfl

instance (pool : Pool) (e : ExprId) : Grows (literal pool e) := by
  unfold literal
  infer_instance

instance (pool : Pool) (e : ExprId) : Grows (assertLiteral pool e) := by
  unfold assertLiteral
  infer_instance

instance grows_assert (pool : Pool) (e : ExprId) : Grows (assert pool e) := by
  induction index : e.index using Nat.strong_induction_on generalizing e with
  | h index inductionHypothesis =>
    have node : Grows (assertNode pool e) := by
      unfold assertNode
      split
      · rename_i operands stored
        have each : Grows (operands.forM (assert pool)) := grows_forM fun operand member =>
          inductionHypothesis operand.index (index ▸ Pool.index_lt_of_node? stored member) operand rfl
        infer_instance
      · infer_instance
      · infer_instance
      · infer_instance
    rw [assert_eq]
    infer_instance

/-- The literal of a boolean has its truth value. -/
theorem literal_runs (typed : pool.WellTyped) (hasTy : pool.HasTy e .bool)
    (exact : session.Exact pool accepted) (live : session.Live) :
    Runs (literal pool e) session (fun lit after =>
      Advances pool accepted session after ∧ after.Represents pool e .bool #[lit])
      fun _ _ => ¬pool.Plain e := by
  refine ((lower_runs typed hasTy.has exact live).mono (fun _ _ _ => id)
    fun _ _ _ refusal => refusal.1).bind ?_
  intro lits after _ lowers
  obtain ⟨ty, represents⟩ := lowers.represents
  obtain rfl := hasTy.unique represents.hasTy
  obtain ⟨lit, rfl, -⟩ := exists_sole represents.row
  exact Runs.pure fun _ => ⟨lowers.advances, represents⟩

/-- Asserting the literal of a boolean demands that it be true. -/
theorem assertLiteral_runs (typed : pool.WellTyped) (hasTy : pool.HasTy e .bool)
    (exact : session.Exact pool accepted) (live : session.Live) :
    Runs (assertLiteral pool e) session
      (fun _ => Session.Asserts pool accepted session fun env => pool.Accepts env e)
      fun _ _ => ¬pool.Plain e := by
  refine (literal_runs typed hasTy exact live).bind ?_
  rintro lit middle middleLive ⟨advances, represents⟩
  have middleExact := advances.exact exact
  refine Succeeds.mono (addClause_succeeds middleExact.closed ?_) ?_
  · simpa using represents.row.ranged
  intro _ after _ emits
  have asserts := middleExact.asserts (pool.Accepts · e) emits fun truth env satisfied agrees => by
    rw [Pool.Accepts, represents.means truth env satisfied agrees]
    simp [Clause.Holds]
  exact ⟨IsTrans.trans _ _ _ advances.extension asserts.extension, asserts.exact⟩

theorem bools_of_apply {op : Op} {ty : Ty} {operands : List ExprId} (typed : pool.WellTyped)
    (stored : pool.node? e = some ⟨ty, .apply op operands⟩)
    (junction : op = .and ∨ op = .or ∨ op = .clause) : ∀ operand ∈ operands, pool.HasTy operand .bool := by
  obtain ⟨types, hasTys, opTyped⟩ := (typed.fits stored).typed
  have bools : ∀ ty ∈ types, ty = .bool := by
    rcases junction with rfl | rfl | rfl <;> cases opTyped <;> assumption
  intro operand member
  obtain ⟨operandTy, tyMember, hasTy⟩ := exists_of_forall₂_of_mem hasTys member
  exact bools operandTy tyMember ▸ hasTy

/-- A disjunction is asserted as the clause of the literals of its operands. -/
theorem assert_or_runs {op : Op} {ty : Ty} {operands : List ExprId} (isOr : op = .or ∨ op = .clause)
    (typed : pool.WellTyped) (stored : pool.node? e = some ⟨ty, .apply op operands⟩)
    (exact : session.Exact pool accepted) (live : session.Live) :
    Runs (do let lits ← operands.mapM (literal pool); addClause lits) session
      (fun _ => Session.Asserts pool accepted session (pool.Accepts · e))
      fun _ _ => ¬pool.Plain e := by
  have evaluates : ∀ truths : List Bool, op.eval (truths.map .bool) = .ok (.bool (truths.any id)) := by
    rcases isOr with rfl | rfl
    · exact Op.eval_or
    · exact Op.eval_clause
  have bools := bools_of_apply typed stored (.inr isOr)
  refine (Runs.mapM (Advances pool accepted)
    (fun operand lit after => after.Represents pool operand .bool #[lit]) ?_ live ?_).bind ?_
  · exact fun _ _ _ _ advances represents => represents.later advances.extension
  · intro operand member after afterLive advances
    refine (literal_runs typed (bools operand member) (advances.exact exact) afterLive).mono
      (fun _ _ _ => id) fun _ _ _ notPlain plain => notPlain ?_
    exact ((Pool.everywhere_apply stored).mp plain).2 operand member
  rintro lits middle middleLive ⟨advances, each⟩
  have middleExact := advances.exact exact
  refine Succeeds.mono (addClause_succeeds middleExact.closed ?_) ?_
  · intro lit member
    obtain ⟨operand, -, represents⟩ := exists_of_forall₂_of_mem each.flip member
    exact represents.row.ranged lit (by simp)
  intro _ after _ emits
  have asserts := middleExact.asserts (pool.Accepts · e) emits fun truth env satisfied agrees => by
    have values : List.Forall₂ (fun operand value => pool.evaluate operand env = .ok value) operands
        ((lits.map (Lit.holds truth)).map .bool) := by
      rw [List.forall₂_map_right_iff, List.forall₂_map_right_iff]
      exact each.imp fun _ _ represents => represents.means truth env satisfied agrees
    rw [Pool.Accepts, (Pool.evaluate_apply stored).mpr ⟨_, values, evaluates _⟩]
    simp [Clause.Holds]
  exact ⟨IsTrans.trans _ _ _ advances.extension asserts.extension, asserts.exact⟩

/-- Assertions of several expressions demand that all be true. -/
theorem forM_assert_runs {items : List ExprId} {refused : LowerError → Session → Prop}
    (exact : session.Exact pool accepted) (live : session.Live)
    (each : ∀ item ∈ items, ∀ (accepted : Env → Prop) (after : Session), after.Exact pool accepted →
      after.Live → Runs (assert pool item) after
        (fun _ => Session.Asserts pool accepted after (pool.Accepts · item)) refused) :
    Runs (items.forM (assert pool)) session
      (fun _ => Session.Asserts pool accepted session fun env => ∀ item ∈ items, pool.Accepts env item)
      refused := by
  induction items generalizing session accepted with
  | nil => exact Runs.pure fun _ => ⟨refl session, exact.congr fun env => by simp⟩
  | cons item items inductionHypothesis =>
    rw [List.forM]
    refine (each item List.mem_cons_self accepted session exact live).bind ?_
    intro _ middle middleLive first
    refine (inductionHypothesis first.exact middleLive fun other member =>
      each other (List.mem_cons_of_mem item member)).mono ?_ fun _ _ _ => id
    intro _ after _ rest
    exact ⟨IsTrans.trans _ _ _ first.extension rest.extension,
      rest.exact.congr fun env => by rw [List.forall_mem_cons, and_assoc]⟩

/-- A boolean is asserted, unless it has an operator without clauses. -/
theorem assert_runs (typed : pool.WellTyped) (isStored : pool.Has e)
    (exact : session.Exact pool accepted) (live : session.Live) :
    Runs (assert pool e) session
      (fun _ => Session.Asserts pool accepted session (pool.Accepts · e))
      fun _ _ => ¬(pool.HasTy e .bool ∧ pool.Plain e) := by
  induction isStored using Pool.Has.induction generalizing session accepted with
  | step e node stored inductionHypothesis =>
    rw [assert_eq]
    obtain ⟨ty, form⟩ := node
    have hasTy : pool.HasTy e ty := ⟨form, stored⟩
    refine Runs.ofExcept (Pool.ty_eq_ok_iff.mpr hasTy) ?_
    split
    · rename_i isBool
      obtain rfl := Op.isBool_iff.mp isBool
      have literal := (assertLiteral_runs typed hasTy exact live).mono (fun _ _ _ => id)
        fun _ _ _ notPlain (both : pool.HasTy e .bool ∧ pool.Plain e) => notPlain both.2
      unfold assertNode
      split
      · rename_i andTy operands found
        refine Runs.get ?_
        split
        · cases Option.some.inj (stored.symm.trans found)
          have operandBools := bools_of_apply typed found (.inl rfl)
          refine (forM_assert_runs exact live fun operand member accepted after afterExact afterLive =>
            (inductionHypothesis operand member afterExact afterLive).mono (fun _ _ _ => id) ?_).mono ?_
              fun _ _ _ => id
          · rintro _ _ _ refusal ⟨-, plain⟩
            exact refusal ⟨operandBools operand member,
              ((Pool.everywhere_apply found).mp plain).2 operand member⟩
          · intro _ after _ asserts
            exact ⟨asserts.extension, asserts.exact.congr fun env =>
              and_congr_right' (Pool.accepts_and found).symm⟩
        · exact literal
      · rename_i orTy operands found
        exact (assert_or_runs (.inl rfl) typed found exact live).mono (fun _ _ _ => id)
          fun _ _ _ notPlain both => notPlain both.2
      · rename_i orTy operands found
        exact (assert_or_runs (.inr rfl) typed found exact live).mono (fun _ _ _ => id)
          fun _ _ _ notPlain both => notPlain both.2
      · exact literal
    · rename_i notBool
      refine Runs.fail fun _ both => notBool ?_
      rw [hasTy.unique both.1]
      rfl

/-- In a new session a boolean variable gets the first literal, and a clause that makes
it true. -/
theorem assert_variable_ends {name : String} (flatten : Bool)
    (stored : pool.node? e = some ⟨.bool, .var name⟩) :
    ∃ after, assert pool e (.start flatten) = .ok () after ∧ after.numVars = 1 ∧
      after.literals[e]? = some #[.positive 1 (Nat.succ_pos 0)] ∧
        after.store.toList = [[.positive 1 (Nat.succ_pos 0)]] := by
  have ty : pool.ty e = .ok .bool := Pool.ty_eq_ok_iff.mpr ⟨_, stored⟩
  have small : ∀ lit ∈ [Lit.positive 1 (Nat.succ_pos 0)], lit.var < Lit.varLimit := by
    simp [Lit.varLimit]
  have normal : Clause.normalize none [.positive 1 (Nat.succ_pos 0)] =
      .ok (some [.positive 1 (Nat.succ_pos 0)]) := by
    unfold Clause.normalize
    rw [Clause.withoutFalse_eq fun lit member => Lit.neg_eq (small lit member)]
    have kept : [Lit.positive 1 (Nat.succ_pos 0)].filter (fun lit => none != some lit.opposite) =
        [.positive 1 (Nat.succ_pos 0)] := rfl
    simp only [bind, Except.bind, kept, List.mergeSort_singleton]
    rfl
  have missing : (Session.start flatten).literals[e]? = none := by simp [Session.start]
  have meets : Stateful.Meets (assert pool e) (.start flatten) (fun _ after => after.numVars = 1 ∧
      after.literals[e]? = some #[.positive 1 (Nat.succ_pos 0)] ∧
        after.store.toList = [[.positive 1 (Nat.succ_pos 0)]]) fun _ _ => False := by
    rw [assert_eq, ty]
    simp only [Stateful.meets_bind, Stateful.meets_ofExcept_ok, Ty.isBool, if_true, assertNode,
      stored, assertLiteral, literal, lower_eq, Stateful.meets_get, missing, lowerNode,
      variableBits, Ty.bitSize, List.range_one, List.mapM_cons, List.mapM_nil]
    refine meets_fresh_of_small (by simp [Session.start, Lit.varLimit]) ?_
    simp only [remember, sole, addClause, keep, Session.start, Stateful.meets_bind,
      Stateful.meets_pure, Stateful.meets_modify, Stateful.meets_get, Nat.zero_add, normal,
      Stateful.meets_ofExcept_ok]
    simp [ClauseStore.insert, ClauseStore.empty, ClauseStore.toList]
  obtain ⟨_, after, ended, ends⟩ := meets.exists_ok
  exact ⟨after, ended, ends⟩

end Lower

namespace Session

variable {pool : Pool} {session : Session} {accepted : Env → Prop}

/-- A session without clauses is exact. -/
theorem exact_start (flatten : Bool) : (start flatten).Exact pool fun _ => True := by
  refine ⟨closed_start flatten, ?_, ?_, ?_, fun _ _ _ _ => trivial, ?_, ?_⟩
  · simp [start]
  · simp [start]
  · simp [surfaceVars, start]
  · refine fun env _ _ => ⟨fun _ => false, ?_, ?_⟩
    · simp [Satisfied, start, ClauseStore.empty, ClauseStore.toList]
    · simp [Agrees, start]
  · intro truth other _ _ _ number positive inside
    exact absurd inside (Nat.not_le_of_lt positive)

/-- Exactness lasts when the pool grows. -/
theorem Exact.extend {later : Pool} (exact : session.Exact pool accepted)
    (extension : pool.Extends later) : session.Exact later accepted := by
  have stored : ∀ entry ∈ session.surface, pool.Has entry.1 := by
    rintro ⟨e, lits⟩ member
    obtain ⟨ty, represents⟩ := exact.represents_surface member
    exact represents.hasTy.has
  have agrees : ∀ truth env, session.Agrees later truth env ↔ session.Agrees pool truth env := by
    intro truth env
    refine forall₂_congr fun entry member => forall_congr' fun ty => ?_
    rw [extension.evaluate_eq (stored entry member), extension.hasTy_iff (stored entry member)]
  refine ⟨exact.closed, ?_, ?_, exact.apart, ?_, ?_, exact.unique⟩
  · intro e lits found
    obtain ⟨ty, represents⟩ := exact.cached e lits found
    refine ⟨ty, extension.hasTy represents.hasTy, represents.row, fun truth env satisfied laterAgrees => ?_⟩
    rw [extension.evaluate_eq represents.hasTy.has]
    exact represents.means truth env satisfied ((agrees truth env).mp laterAgrees)
  · intro e lits
    rw [exact.surface]
    refine and_congr_left fun found => ?_
    obtain ⟨ty, represents⟩ := exact.cached e lits found
    rw [extension.isVariable_eq represents.hasTy.has]
  · exact fun truth env satisfied laterAgrees =>
      exact.sound truth env satisfied ((agrees truth env).mp laterAgrees)
  · intro env bound accepts
    obtain ⟨truth, satisfied, earlier⟩ := exact.complete env (fun entry member => by
      rw [← extension.evaluate_eq (stored entry member)]
      exact bound entry member) accepts
    exact ⟨truth, satisfied, (agrees truth env).mpr earlier⟩

/-- The literals of an expression have the bits of its value. -/
def Encodes (pool : Pool) (env : Env) (truth : Assignment) (e : ExprId) (lits : Array Lit) : Prop :=
  ∃ ty value, pool.ty e = .ok ty ∧ pool.evaluate e env = .ok value ∧
    ty.toBits value = .ok (lits.toList.map (Lit.holds truth))

theorem toBits_value {truth : Assignment} {ty : Ty} {lits : Array Lit} (row : session.Row lits ty) :
    ty.toBits (truth.value ty lits) = .ok (lits.toList.map (Lit.holds truth)) := by
  have admitted : ty.admits (truth.value ty lits) := Ty.admits_decode ty _
  rw [Ty.toBits, if_pos admitted, Assignment.encode_value row.size_eq]

/-- Literals that have one literal per bit have the bits of a value exactly when the
value is read from them. -/
theorem encodes_iff {env : Env} {truth : Assignment} {e : ExprId} {ty : Ty} {lits : Array Lit}
    (hasTy : pool.HasTy e ty) (row : session.Row lits ty) :
    Encodes pool env truth e lits ↔ pool.evaluate e env = .ok (truth.value ty lits) := by
  constructor
  · rintro ⟨ownTy, value, typed, evaluated, bits⟩
    obtain rfl := hasTy.unique (Pool.ty_eq_ok_iff.mp typed)
    unfold Ty.toBits at bits
    split at bits
    · rename_i admitted
      rw [evaluated, Assignment.value, ← Except.ok.inj bits, Ty.decode_encode ty value admitted]
    · cases bits
  · exact fun evaluated => ⟨ty, _, Pool.ty_eq_ok_iff.mpr hasTy, evaluated, toBits_value row⟩

theorem Exact.agrees_iff {truth : Assignment} {env : Env} (exact : session.Exact pool accepted) :
    session.Agrees pool truth env ↔
      ∀ entry ∈ session.surface, Encodes pool env truth entry.1 entry.2 := by
  refine forall₂_congr fun entry member => ?_
  obtain ⟨ty, represents⟩ := exact.represents_surface member
  rw [encodes_iff represents.hasTy represents.row]
  constructor
  · exact fun reads => reads ty represents.hasTy
  · intro evaluated otherTy hasTy
    rwa [hasTy.unique represents.hasTy]

/-- The values of variables that are read from an assignment. -/
def readBack (session : Session) (pool : Pool) (truth : Assignment) : Env := fun name => do
  let entry ← session.surface.find? fun entry => pool.variableName? entry.1 == some name
  let ty ← (pool.ty entry.1).toOption
  (ty.ofBits (entry.2.toList.map (Lit.holds truth))).toOption

/-- A variable has one name, so its value is the one that is read from its literals. -/
theorem Exact.agrees_readBack (exact : session.Exact pool accepted) (typed : pool.WellTyped)
    (truth : Assignment) : session.Agrees pool truth (session.readBack pool truth) := by
  rintro ⟨e, lits⟩ member ty hasTy
  obtain ⟨isVariable, found⟩ := (exact.surface e lits).mp member
  obtain ⟨name, named⟩ := Option.isSome_iff_exists.mp isVariable
  obtain ⟨ownTy, represents⟩ := exact.cached e lits found
  obtain rfl := hasTy.unique represents.hasTy
  obtain ⟨varTy, stored⟩ := Pool.variableName?_eq_some_iff.mp named
  obtain rfl := hasTy.unique ⟨_, stored⟩
  have first : session.surface.find? (fun entry => pool.variableName? entry.1 == some name) =
      some (e, lits) := by
    cases search : session.surface.find? (fun entry => pool.variableName? entry.1 == some name) with
    | none => simpa [named] using Array.find?_eq_none.mp search (e, lits) member
    | some entry =>
      obtain ⟨other, otherLits⟩ := entry
      have otherNamed : pool.variableName? other = some name := by simpa using Array.find?_some search
      obtain rfl := typed.eq_of_name_eq named otherNamed
      have otherFound := ((exact.surface e otherLits).mp (Array.mem_of_find?_eq_some search)).2
      rw [Option.some.inj (found.symm.trans otherFound)]
  refine (Pool.evaluate_var stored).mpr ⟨?_, Ty.admits_decode ty _⟩
  have read : ty.ofBits (lits.toList.map (Lit.holds truth)) = .ok (truth.value ty lits) :=
    if_pos (by simpa using represents.row.size_eq)
  simp [readBack, first, Pool.ty_eq_ok_iff.mpr hasTy, read, Except.toOption]

end Session

end Clausal
