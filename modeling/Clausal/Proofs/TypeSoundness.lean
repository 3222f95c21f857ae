import Mathlib
import Clausal.Proofs.Uses

/-!
# Type soundness

Checks at construction, types of results and evaluation are three definitions by
cases over the operators. Here they meet: in every workspace that operations lead
to, a stored application passes the checks and has the type that its operator gives
it, and the only way for an expression to have no value is a variable in it without
a value of its type. `Pool.Blames` says which variable that is and how it is
reported.
-/

namespace Clausal

/-- A computation over a list that fails does so at an item. -/
theorem exists_of_mapM_eq_error {ε α β : Type} {step : α → Except ε β} {items : List α} {failure : ε}
    (failed : items.mapM step = .error failure) : ∃ item ∈ items, step item = .error failure := by
  induction items with
  | nil => cases failed
  | cons item items inductionHypothesis =>
    rw [List.mapM_cons] at failed
    cases first : step item with
    | error cause =>
      rw [first] at failed
      cases failed
      exact ⟨item, List.mem_cons_self, first⟩
    | ok result =>
      rw [first] at failed
      cases rest : items.mapM step with
      | error cause =>
        simp only [rest, bind, Except.bind] at failed
        cases failed
        obtain ⟨other, member, cause⟩ := inductionHypothesis rest
        exact ⟨other, List.mem_cons_of_mem item member, cause⟩
      | ok results =>
        simp only [rest, bind, Except.bind] at failed
        cases failed

namespace Pool

variable {pool : Pool} {e : ExprId} {env : Env}

/-- A variable that occurs in an expression has no value, or one outside its type,
and this is what is reported. -/
inductive Blames (pool : Pool) (env : Env) (e : ExprId) : EvalError → Prop where
  | unbound {x : ExprId} {ty : Ty} {name : String} (reaches : pool.Reaches e x)
      (stored : pool.node? x = some ⟨ty, .var name⟩) (missing : env name = none) :
      Blames pool env e (.unbound name)
  | outside {x : ExprId} {ty : Ty} {name : String} {value : Value} (reaches : pool.Reaches e x)
      (stored : pool.node? x = some ⟨ty, .var name⟩) (given : env name = some value)
      (rejected : ¬ ty.admits value) : Blames pool env e (.outside name value)

theorem Blames.of_operand {node : Node} {operand : ExprId} {failure : EvalError}
    (found : pool.node? e = some node) (member : operand ∈ node.operands)
    (blames : pool.Blames env operand failure) : pool.Blames env e failure := by
  cases blames with
  | unbound reaches stored missing => exact .unbound (.of_operand found member reaches) stored missing
  | outside reaches stored given rejected =>
    exact .outside (.of_operand found member reaches) stored given rejected

section Typed

variable (typed : pool.WellTyped)
include typed

/-- If an expression has no value, a variable that occurs in it is to blame. The
operators are not: on values of the operand types they have values. -/
theorem WellTyped.blames {failure : EvalError} (stored : pool.Has e)
    (failed : pool.evaluate e env = .error failure) : pool.Blames env e failure := by
  induction stored using Has.induction generalizing failure with
  | step e node found inductionHypothesis =>
    obtain ⟨ty, form⟩ := node
    cases form with
    | var name =>
      rw [evaluate_eq_of_node? found] at failed
      simp only [Node.evaluate] at failed
      cases given : env name with
      | none =>
        rw [given] at failed
        cases failed
        exact .unbound .refl found given
      | some value =>
        simp only [given] at failed
        split at failed
        · cases failed
        · rename_i rejected
          cases failed
          exact .outside .refl found given rejected
    | const value =>
      rw [evaluate_const found] at failed
      cases failed
    | apply op operands =>
      obtain ⟨types, each, operator⟩ := (typed.fits found).typed
      rw [evaluate_apply_eq found] at failed
      cases evaluated : operands.mapM fun operand => pool.evaluate operand env with
      | error cause =>
        rw [evaluated] at failed
        cases failed
        obtain ⟨operand, member, operandFailed⟩ := exists_of_mapM_eq_error evaluated
        exact (inductionHypothesis operand member operandFailed).of_operand found member
      | ok values =>
        obtain ⟨value, computed, -⟩ :=
          operator.exists_eval (typed.admitsAll each (mapM_eq_ok_iff.mp evaluated))
        simp only [evaluated, bind, Except.bind, computed, Except.mapError] at failed
        cases failed

/-- No operator meets operands that do not fit it. -/
theorem WellTyped.evaluate_ne_fault (stored : pool.Has e) (breach : Fault) :
    pool.evaluate e env ≠ .error (.fault breach) := by
  intro failed
  cases typed.blames stored failed

/-- A stored application passes the checks of its operator, and its type is the one
that the operator gives it. -/
theorem WellTyped.validates {ty : Ty} {op : Op} {operands : List ExprId}
    (found : pool.node? e = some ⟨ty, .apply op operands⟩) :
    ∃ types, pool.tys operands = .ok types ∧ pool.validate op operands = .ok types ∧
      op.resultTy types = .ok ty := by
  obtain ⟨⟨types, each, operator⟩, literals⟩ := typed.fits found
  obtain ⟨arity, checked, result⟩ := operator.accepted
  rw [← each.length_eq] at arity
  exact ⟨types, tys_eq_ok_iff.mpr each, validate_eq_ok_iff.mpr ⟨arity, each, checked, literals⟩, result⟩

end Typed

end Pool

namespace Workspace

variable {workspace : Workspace PassMemory}

/-- In every workspace that operations lead to, evaluation meets no fault, an expression
has a value exactly if all variables in it have values of their types, the value is
then of the type of the expression, and every stored application passes the checks
of its operator and has the type that the operator gives it. -/
theorem Used.type_sound (used : workspace.Used) :
    (∀ e env, workspace.pool.Has e →
      (∀ breach, workspace.pool.evaluate e env ≠ .error (.fault breach)) ∧
      ((∃ value, workspace.pool.evaluate e env = .ok value) ↔ workspace.pool.Binds env e) ∧
      ∀ value, workspace.pool.evaluate e env = .ok value →
        ∃ ty, workspace.pool.ty e = .ok ty ∧ ty.admits value) ∧
    ∀ e ty op operands, workspace.pool.node? e = some ⟨ty, .apply op operands⟩ →
      ∃ types, workspace.pool.tys operands = .ok types ∧
        workspace.pool.validate op operands = .ok types ∧ op.resultTy types = .ok ty := by
  have typed := used.coherent.typed
  refine ⟨fun e env stored => ⟨typed.evaluate_ne_fault stored, ⟨?bound, typed.exists_evaluate stored⟩,
    fun value evaluated => ?admitted⟩, fun e ty op operands => typed.validates⟩
  case bound =>
    rintro ⟨value, evaluated⟩
    exact Pool.binds_of_evaluate stored evaluated
  case admitted =>
    obtain ⟨⟨ty, form⟩, found⟩ := Pool.has_iff.mp stored
    have hasTy : workspace.pool.HasTy e ty := ⟨form, found⟩
    exact ⟨ty, Pool.ty_eq_ok_iff.mpr hasTy, typed.admits hasTy evaluated⟩

/-- The sum `x + x` of four bits has a value of four bits when `x` is nine, and none, but
no fault either, when `x` is sixteen or a boolean. -/
theorem type_sound_sum :
    ∃ (workspace : Workspace PassMemory) (x sum : ExprId), workspace.Used ∧
      workspace.pool.node? sum = some ⟨.uint 4, .apply (.add 4) [x, x]⟩ ∧
      workspace.pool.validate (.add 4) [x, x] = .ok [.uint 4, .uint 4] ∧
      (∃ number < 16, workspace.pool.evaluate sum (fun _ => some (.uint 9)) = .ok (.uint number)) ∧
      (∀ value, workspace.pool.evaluate sum (fun _ => some (.uint 16)) ≠ .ok value) ∧
      ∀ breach, workspace.pool.evaluate sum (fun _ => some (.bool true)) ≠ .error (.fault breach) := by
  have sized : (Ty.uint 4).Sized := Nat.succ_pos 3
  obtain ⟨first, x, firstReachable, xStored⟩ := exists_reachable_variable "x" sized
  have hasTy : first.pool.HasTy x (.uint 4) := ⟨_, xStored⟩
  have applies : first.pool.Applies (.add 4) [x, x] (.uint 4) :=
    ⟨⟨[.uint 4, .uint 4], .cons hasTy (.cons hasTy .nil), .add (by decide) 4 4⟩, by simp⟩
  obtain ⟨workspace, sum, reachable, extension, stored⟩ :=
    firstReachable.exists_built (.apply (.add 4) [x, x]) (Build.apply_yields applies)
  have used : workspace.Used := reachable.evolved.used
  have sumTy : workspace.pool.HasTy sum (.uint 4) := ⟨_, stored⟩
  have laterTy := extension.hasTy hasTy
  have occurs : ∀ y, workspace.pool.Reaches sum y → y = sum ∨ y = x := by
    intro y reaches
    by_cases same : y = sum
    · exact .inl same
    · obtain ⟨operand, member, further⟩ := reaches.exists_operand stored same
      obtain rfl : operand = x := by simpa using member
      exact .inr (further.eq_of_leaf (extension xStored) rfl)
  obtain ⟨values, applications⟩ := used.type_sound
  refine ⟨workspace, x, sum, used, stored, ?_, ?_, ?_, (values sum _ sumTy.has).1⟩
  · obtain ⟨types, typesFound, validated, -⟩ := applications sum _ _ _ stored
    have each := Pool.tys_eq_ok_iff.mpr (List.Forall₂.cons laterTy (.cons laterTy .nil))
    cases typesFound.symm.trans each
    exact validated
  · have bound : workspace.pool.Binds (fun _ => some (.uint 9)) sum := by
      intro y ty name reaches isVar
      rcases occurs y reaches with rfl | rfl
      · rw [stored] at isVar
        cases isVar
      · rw [extension xStored] at isVar
        cases isVar
        exact ⟨_, rfl, by decide⟩
    obtain ⟨value, evaluated⟩ := (values sum _ sumTy.has).2.1.mpr bound
    obtain ⟨ty, isTy, admitted⟩ := (values sum _ sumTy.has).2.2 value evaluated
    obtain rfl := (Pool.ty_eq_ok_iff.mp isTy).unique sumTy
    obtain ⟨number, rfl, small⟩ := Ty.admits_uint_iff.mp admitted
    exact ⟨number, small, evaluated⟩
  · intro value evaluated
    have bound := (values sum _ sumTy.has).2.1.mp ⟨value, evaluated⟩
    obtain ⟨given, isGiven, admitted⟩ :=
      bound (.of_operand stored (by simp) .refl) (extension xStored)
    cases isGiven
    exact absurd admitted (by decide)

end Workspace

end Clausal
