import Mathlib
import Clausal.Proofs.HashConsing
import Clausal.Proofs.Numbering

/-!
# Dense numbers are a renaming

A formula of clauses is the clauses with other names for their variables. The number
of a variable is its rank among the variables in the order of first occurrence, so
the numbers from one up to the number of variables are all in use, each for one
variable (`Numbering.Renames`). Clauses and formula have the same models up to this
renaming.

What was read so far is a list of variables, and numbering one more literal appends
its variable to the list (`Ranks.numberLit`).
-/

namespace Clausal

/-- The variables of the literals of clauses, in the order in which they are read. -/
def Cnf.occurrences (clauses : List Clause) : List Nat :=
  clauses.flatMap fun clause => clause.map Lit.var

namespace Numbering

variable {numbering : Numbering} {seen : List Nat} {var number : Nat}

/-- The variables that were read have their ranks in the order of first occurrence as
numbers, and no other variable has a number. -/
structure Ranks (numbering : Numbering) (seen : List Nat) : Prop where
  get?_eq_some_iff : ∀ {var number}, numbering.get? var = some number ↔
    var ∈ seen ∧ number = (firsts seen).idxOf var + 1
  size_eq : numbering.size = (firsts seen).length

theorem ranks_empty : empty.Ranks [] :=
  ⟨by simp [empty, get?], by simp [empty, size, firsts]⟩

namespace Ranks

section Reading

variable (ranks : numbering.Ranks seen)
include ranks

theorem get?_eq_none_iff : numbering.get? var = none ↔ var ∉ seen := by
  rw [Option.eq_none_iff_forall_ne_some]
  simp only [Ne, ranks.get?_eq_some_iff]
  exact ⟨fun absent known => absent _ ⟨known, rfl⟩, fun new _ found => new found.1⟩

/-- One more literal is read. -/
theorem numberLit (lit : Lit) :
    (Numbering.numberLit lit numbering).2.Ranks (seen ++ [lit.var]) := by
  cases found : numbering.get? lit.var with
  | some number =>
    have known : lit.var ∈ seen := (ranks.get?_eq_some_iff.mp found).1
    rw [numberLit_of_known found]
    refine ⟨fun {var number} => ?_, by rw [firsts_append_of_mem known, ranks.size_eq]⟩
    rw [ranks.get?_eq_some_iff, firsts_append_of_mem known]
    have same : var ∈ seen ++ [lit.var] ↔ var ∈ seen := by
      simp only [List.mem_append, List.mem_singleton, or_iff_left_iff_imp]
      rintro rfl
      exact known
    rw [same]
  | none =>
    have new : lit.var ∉ seen := ranks.get?_eq_none_iff.mp found
    obtain ⟨after, numbered, size, lookUp⟩ := exists_numberLit_of_new found
    have longer := firsts_append_of_notMem new
    rw [numbered]
    refine ⟨fun {var number} => ?_, by rw [size, longer, ranks.size_eq, List.length_append]; rfl⟩
    rw [lookUp, longer]
    by_cases same : lit.var = var
    · subst same
      rw [if_pos rfl, List.idxOf_append_of_notMem (mt mem_firsts.mp new), ranks.size_eq]
      simp [eq_comm]
    · rw [if_neg same, ranks.get?_eq_some_iff]
      have different : var ∈ seen ++ [lit.var] ↔ var ∈ seen := by
        simp [Ne.symm same]
      rw [different]
      refine and_congr_right fun known => ?_
      rw [List.idxOf_append_of_mem (mem_firsts.mpr known)]

/-- Items are read one after the other. -/
theorem mapM {α β : Type} {step : α → StateM Numbering β} {vars : α → List Nat}
    (each : ∀ item {numbering : Numbering} {seen}, numbering.Ranks seen →
      (step item numbering).2.Ranks (seen ++ vars item)) (items : List α) :
    (items.mapM step numbering).2.Ranks (seen ++ items.flatMap vars) := by
  induction items generalizing numbering seen with
  | nil =>
    rw [List.flatMap_nil, List.append_nil]
    exact ranks
  | cons item items inductionHypothesis =>
    rw [List.mapM_cons, List.flatMap_cons, ← List.append_assoc]
    exact inductionHypothesis (each item ranks)

theorem numberClause (clause : Clause) :
    (Numbering.numberClause clause numbering).2.Ranks (seen ++ clause.map Lit.var) := by
  rw [List.map_eq_flatMap]
  exact ranks.mapM (fun lit _ _ ranks => ranks.numberLit lit) clause

end Reading

/-- The numbers of the variables are the numbers from one up to the size, each of
one variable. -/
theorem bijOn (ranks : numbering.Ranks seen) :
    Set.BijOn (fun var => (numbering.get? var).getD 0) {var | var ∈ seen}
      (Set.Icc 1 numbering.size) := by
  have number_eq : ∀ {var}, var ∈ seen →
      (numbering.get? var).getD 0 = (firsts seen).idxOf var + 1 := by
    intro var known
    rw [ranks.get?_eq_some_iff.mpr ⟨known, rfl⟩, Option.getD_some]
  refine ⟨fun var known => ?inside, fun left leftKnown right rightKnown same => ?injective,
    fun number inside => ?surjective⟩
  case inside =>
    have below := List.idxOf_lt_length_iff.mpr (mem_firsts.mpr known)
    simp only [number_eq known, ranks.size_eq, Set.mem_Icc]
    omega
  case injective =>
    simp only [number_eq leftKnown, number_eq rightKnown, Nat.add_right_cancel_iff] at same
    exact (List.idxOf_inj (mem_firsts.mpr leftKnown)).mp same
  case surjective =>
    obtain ⟨low, high⟩ := inside
    rw [ranks.size_eq] at high
    have below : number - 1 < (firsts seen).length := by omega
    have known : (firsts seen)[number - 1] ∈ seen := mem_firsts.mp (List.getElem_mem below)
    refine ⟨(firsts seen)[number - 1], known, ?_⟩
    simp only [number_eq known, nodup_firsts.idxOf_getElem]
    omega

end Ranks

/-- A formula is the clauses with the numbers of the variables in their place. -/
structure Renames (numbering : Numbering) (clauses : List Clause) (cnf : Cnf) : Prop where
  /-- The variables of the clauses are numbered from one up, and no two alike. -/
  bijective : Set.BijOn (fun var => (numbering.get? var).getD 0)
    {var | var ∈ Cnf.occurrences clauses} (Set.Icc 1 cnf.numVars)
  /-- A number is the rank in the order of first occurrence. -/
  ranked : ∀ var number, numbering.get? var = some number ↔
    var ∈ Cnf.occurrences clauses ∧ number = (firsts (Cnf.occurrences clauses)).idxOf var + 1
  /-- Other variables have no number. -/
  absent : ∀ var, numbering.get? var = none ↔ var ∉ Cnf.occurrences clauses
  /-- Literals are replaced where they stand. -/
  replaced : List.Forall₂ (List.Forall₂ fun lit code => numbering.lit? lit = some code) clauses
    cnf.clauses
  /-- Every assignment of the variables has a model that corresponds to it. -/
  carried : ∀ truth, ∃ model : Array Bool, model.size = cnf.numVars + 1 ∧
    numbering.Carries model truth
  /-- Every model has an assignment that corresponds to it. -/
  carries : ∀ model : Array Bool, model.size = cnf.numVars + 1 →
    ∃ truth, numbering.Carries model truth
  /-- The formula has the truth value in a model that the clauses have in a corresponding
  assignment. -/
  eval : ∀ truth model, numbering.Carries model truth → ∃ holds, cnf.eval model = .ok holds ∧
    (holds = true ↔ ∀ clause ∈ clauses, Clause.Holds truth clause)

end Numbering

namespace Cnf

variable {clauses : List Clause}

theorem ranks_ofClauses (clauses : List Clause) :
    (ofClauses clauses).2.Ranks (occurrences clauses) :=
  Numbering.ranks_empty.mapM (fun clause _ _ ranks => ranks.numberClause clause) clauses

/-- Numbering the variables of clauses in the order of first occurrence renames them. -/
theorem ofClauses_renames (clauses : List Clause) :
    (ofClauses clauses).2.Renames clauses (ofClauses clauses).1 := by
  obtain ⟨dense, numVars, replaced⟩ := ofClauses_spec clauses
  have ranks := ranks_ofClauses clauses
  refine ⟨numVars ▸ ranks.bijOn, fun _ _ => ranks.get?_eq_some_iff, fun _ => ranks.get?_eq_none_iff,
    replaced, fun truth => numVars ▸ dense.exists_model truth, fun model size => ?carries,
    fun truth model carries => ?eval⟩
  case carries => exact dense.exists_assignment (by omega)
  case eval =>
    refine ⟨_, clausesHold_eq dense carries replaced, ?_⟩
    simp [Clause.Holds]

/-- The variables 7, 3 and 12 get the numbers 1, 2 and 3, and 5 gets none. The formula is
true in a model in which 1 and 3 are. -/
theorem ofClauses_renames_three :
    ∃ clauses : List Clause, clauses.map (·.map Lit.code) = [[7, -3], [3, 12]] ∧
      (ofClauses clauses).2.get? 12 = some 3 ∧ (ofClauses clauses).2.get? 5 = none ∧
        (ofClauses clauses).1.eval #[false, true, false, true] = .ok true := by
  refine ⟨[[⟨7, by decide⟩, ⟨-3, by decide⟩], [⟨3, by decide⟩, ⟨12, by decide⟩]], rfl, ?_⟩
  have renames := ofClauses_renames
    [[⟨7, by decide⟩, ⟨-3, by decide⟩], [⟨3, by decide⟩, ⟨12, by decide⟩]]
  refine ⟨(renames.ranked 12 3).mpr (by decide), (renames.absent 5).mpr (by decide), ?_⟩
  obtain ⟨holds, evaluated, true_iff⟩ := renames.eval (· ∈ [7, 12]) #[false, true, false, true] (by
    intro var number numbered
    obtain ⟨member, rfl⟩ := (renames.ranked var number).mp numbered
    have cases : var = 7 ∨ var = 3 ∨ var = 3 ∨ var = 12 := by simpa [occurrences, Lit.var] using member
    rcases cases with rfl | rfl | rfl | rfl <;> decide)
  rw [evaluated, true_iff.mpr]
  simp [Clause.Holds, Lit.holds, Lit.eval, Lit.var, Lit.isNegated]

end Cnf

end Clausal
