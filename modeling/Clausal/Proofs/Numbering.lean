import Mathlib
import Clausal.Engine
import Clausal.Proofs.Clauses

/-!
# Numbered formulas

Clauses and the formula with numbered variables hold together. An engine's model of
the formula gives an assignment of the variables that have numbers, and every
assignment that makes the clauses true gives a model.
-/

namespace Clausal

namespace Numbering

variable {numbering before after : Numbering}

/-- Variables have different numbers, from one up to the size. -/
structure Dense (numbering : Numbering) : Prop where
  inside : ∀ {var number}, numbering.get? var = some number → 0 < number ∧ number ≤ numbering.size
  injective : ∀ {left right number}, numbering.get? left = some number →
    numbering.get? right = some number → left = right

/-- A later numbering keeps the numbers that were given. -/
structure Advances (before after : Numbering) : Prop where
  keeps : ∀ {var number}, before.get? var = some number → after.get? var = some number
  dense : before.Dense → after.Dense

instance : IsPreorder Numbering Advances where
  refl _ := ⟨id, id⟩
  trans _ _ _ earlier later :=
    ⟨fun found => later.keeps (earlier.keeps found), fun dense => later.dense (earlier.dense dense)⟩

theorem dense_empty : empty.Dense :=
  ⟨by simp [get?, empty], by simp [get?, empty]⟩

theorem Advances.lit?_eq (advances : before.Advances after) {lit : Lit} {code : Int}
    (found : before.lit? lit = some code) : after.lit? lit = some code := by
  obtain ⟨number, numbered, rfl⟩ := Option.map_eq_some_iff.mp found
  exact Option.map_eq_some_iff.mpr ⟨number, advances.keeps numbered, rfl⟩

/-- A literal whose variable has a number gets that number. -/
theorem numberLit_of_known {lit : Lit} {number : Nat} (found : before.get? lit.var = some number) :
    numberLit lit before = (signed lit number, before) := by
  rw [numberLit, found]

/-- A literal of a new variable gets the next number. -/
theorem exists_numberLit_of_new {lit : Lit} (missing : before.get? lit.var = none) :
    ∃ after, numberLit lit before = (signed lit (before.size + 1), after) ∧
      after.size = before.size + 1 ∧
        ∀ var, after.get? var = if lit.var = var then some (before.size + 1) else before.get? var := by
  refine ⟨⟨before.numbers.insert lit.var (before.size + 1)⟩, by rw [numberLit, missing], ?size, ?lookUp⟩
  case size =>
    have absent : lit.var ∉ before.numbers := by
      intro known
      obtain ⟨number, numbered⟩ := Option.isSome_iff_exists.mp
        (Std.HashMap.mem_iff_isSome_getElem?.mp known)
      cases missing.symm.trans numbered
    simp [Numbering.size, Std.HashMap.size_insert, absent]
  case lookUp =>
    intro var
    simp [get?, Std.HashMap.getElem?_insert]

/-- A literal is numbered. A new variable gets the next number, which no other has. -/
theorem numberLit_spec (lit : Lit) (before : Numbering) :
    before.Advances (numberLit lit before).2 ∧
      (numberLit lit before).2.lit? lit = some (numberLit lit before).1 := by
  cases found : before.get? lit.var with
  | some number =>
    rw [numberLit_of_known found]
    exact ⟨refl before, Option.map_eq_some_iff.mpr ⟨number, found, rfl⟩⟩
  | none =>
    obtain ⟨after, numbered, size, lookUp⟩ := exists_numberLit_of_new found
    rw [numbered]
    refine ⟨⟨fun {var number} numbered => ?keeps,
      fun dense => ⟨fun {var number} numbered => ?inside, ?injective⟩⟩, ?lit⟩
    case keeps =>
      rw [lookUp, if_neg]
      · exact numbered
      · rintro rfl
        cases found.symm.trans numbered
    case inside =>
      rw [lookUp] at numbered
      rw [size]
      split at numbered
      · cases numbered
        omega
      · have inside := dense.inside numbered
        omega
    case injective =>
      intro left right number leftNumbered rightNumbered
      rw [lookUp] at leftNumbered rightNumbered
      split at leftNumbered <;> split at rightNumbered
      · rename_i leftSame rightSame
        exact leftSame.symm.trans rightSame
      · cases leftNumbered
        have inside := dense.inside rightNumbered
        omega
      · cases rightNumbered
        have inside := dense.inside leftNumbered
        omega
      · exact dense.injective leftNumbered rightNumbered
    case lit =>
      rw [lit?, lookUp, if_pos rfl]
      rfl

/-- What relates an item to its result survives the numbering of other items. -/
theorem mapM_spec {α β : Type} {step : α → StateM Numbering β} (related : α → β → Numbering → Prop)
    (stable : ∀ item result before after, Advances before after →
      related item result before → related item result after)
    (each : ∀ item before, before.Advances (step item before).2 ∧
      related item (step item before).1 (step item before).2) (items : List α) (before : Numbering) :
    before.Advances (items.mapM step before).2 ∧
      List.Forall₂ (fun item result => related item result (items.mapM step before).2) items
        (items.mapM step before).1 := by
  induction items generalizing before with
  | nil => exact ⟨refl before, .nil⟩
  | cons item items inductionHypothesis =>
    obtain ⟨first, holds⟩ := each item before
    obtain ⟨rest, others⟩ := inductionHypothesis (step item before).2
    rw [List.mapM_cons]
    exact ⟨IsTrans.trans _ _ _ first rest, .cons (stable _ _ _ _ rest holds) others⟩

/-- A model has the truth values of the variables under their numbers. -/
def Carries (numbering : Numbering) (model : Array Bool) (truth : Assignment) : Prop :=
  ∀ {var number}, numbering.get? var = some number → model[number]? = some (truth var)

/-- A model gives truth values to the variables that have numbers. -/
theorem Dense.exists_assignment (dense : numbering.Dense) {model : Array Bool}
    (size : numbering.size < model.size) : ∃ truth, numbering.Carries model truth := by
  refine ⟨fun var => ((numbering.get? var).bind fun number => model[number]?).getD false, ?_⟩
  intro var number found
  have inside : number < model.size := by
    have bound := (dense.inside found).2
    omega
  simp [found, Array.getElem?_eq_getElem inside]

/-- An assignment gives a model, since no two variables share a number. -/
theorem Dense.exists_model (dense : numbering.Dense) (truth : Assignment) :
    ∃ model : Array Bool, model.size = numbering.size + 1 ∧ numbering.Carries model truth := by
  classical
  refine ⟨Array.ofFn fun place : Fin (numbering.size + 1) =>
    decide (∃ var, numbering.get? var = some place.1 ∧ truth var = true), by simp, ?_⟩
  intro var number found
  have inside := (dense.inside found).2
  rw [Array.getElem?_ofFn, dif_pos (by omega), Option.some.injEq, Bool.eq_iff_iff, decide_eq_true_iff]
  constructor
  · rintro ⟨other, otherFound, holds⟩
    rwa [dense.injective found otherFound]
  · exact fun holds => ⟨var, found, holds⟩

/-- A signed number has the number and the sign of its literal. -/
theorem signed_spec (lit : Lit) {number : Nat} (positive : 0 < number) :
    signed lit number ≠ 0 ∧ (signed lit number).natAbs = number ∧
      decide (signed lit number < 0) = lit.isNegated := by
  unfold signed
  split
  · rename_i negated
    rw [negated, decide_eq_true_iff]
    omega
  · rename_i plain
    rw [Bool.eq_false_iff.mpr plain, decide_eq_false_iff_not]
    omega

/-- A numbered literal has the truth value of the literal. -/
theorem Dense.litHolds_eq (dense : numbering.Dense) {model : Array Bool} {truth : Assignment}
    (carries : numbering.Carries model truth) {lit : Lit} {code : Int}
    (found : numbering.lit? lit = some code) :
    Cnf.litHolds model code = .ok (lit.holds truth) := by
  obtain ⟨number, numbered, rfl⟩ := Option.map_eq_some_iff.mp found
  obtain ⟨nonzero, var, sign⟩ := signed_spec lit (dense.inside numbered).1
  unfold Cnf.litHolds Lit.ofInt
  rw [dif_neg nonzero]
  simp only [bind, Except.bind, Lit.var, var, carries numbered, Lit.eval, Lit.isNegated, sign]
  rfl

end Numbering

namespace Cnf

variable {clauses : List Clause} {model : Array Bool} {truth : Assignment}

/-- Clauses are numbered one by one, with one numbering for all. -/
theorem ofClauses_spec (clauses : List Clause) :
    (ofClauses clauses).2.Dense ∧ (ofClauses clauses).1.numVars = (ofClauses clauses).2.size ∧
      List.Forall₂ (List.Forall₂ fun lit code => (ofClauses clauses).2.lit? lit = some code) clauses
        (ofClauses clauses).1.clauses := by
  obtain ⟨advances, each⟩ := Numbering.mapM_spec
    (fun clause codes numbering => List.Forall₂ (fun lit code => numbering.lit? lit = some code) clause
      codes)
    (fun _ _ _ _ advances => List.Forall₂.imp fun _ _ found => advances.lit?_eq found)
    (Numbering.mapM_spec (fun lit code numbering => numbering.lit? lit = some code)
      (fun _ _ _ _ advances found => advances.lit?_eq found) Numbering.numberLit_spec)
    clauses .empty
  exact ⟨advances.dense Numbering.dense_empty, rfl, each⟩

theorem clauseHolds_eq {numbering : Numbering} (dense : numbering.Dense)
    (carries : numbering.Carries model truth) {clause : Clause} {codes : List Int}
    (each : List.Forall₂ (fun lit code => numbering.lit? lit = some code) clause codes) :
    clauseHolds model codes = .ok (clause.any (Lit.holds truth)) := by
  induction each with
  | nil => rfl
  | @cons lit code clause codes found _ inductionHypothesis =>
    unfold clauseHolds
    rw [dense.litHolds_eq carries found]
    simp only [bind, Except.bind, inductionHypothesis, List.any_cons]
    cases lit.holds truth <;> rfl

theorem clausesHold_eq {numbering : Numbering} (dense : numbering.Dense)
    (carries : numbering.Carries model truth) {codes : List (List Int)}
    (each : List.Forall₂ (List.Forall₂ fun lit code => numbering.lit? lit = some code) clauses codes) :
    clausesHold model codes = .ok (clauses.all fun clause => clause.any (Lit.holds truth)) := by
  induction each with
  | nil => rfl
  | @cons clause code clauses codes found _ inductionHypothesis =>
    unfold clausesHold
    rw [clauseHolds_eq dense carries found]
    simp only [bind, Except.bind, inductionHypothesis, List.all_cons]
    cases clause.any (Lit.holds truth) <;> rfl

/-- A model makes the formula true if its assignment makes the clauses true. -/
theorem eval_ofClauses (carries : (ofClauses clauses).2.Carries model truth) :
    (ofClauses clauses).1.eval model = .ok true ↔ ∀ clause ∈ clauses, Clause.Holds truth clause := by
  obtain ⟨dense, -, each⟩ := ofClauses_spec clauses
  rw [eval, clausesHold_eq dense carries each, Except.ok.injEq, List.all_eq_true]
  simp [Clause.Holds]

section Padding

variable {extra : Array Bool}

/-- A variable that is looked up is there in a longer model. -/
theorem getElem?_append_of_some {index : Nat} {bit : Bool} (found : model[index]? = some bit) :
    (model ++ extra)[index]? = some bit := by
  obtain ⟨inside, rfl⟩ := Array.getElem?_eq_some_iff.mp found
  rw [Array.getElem?_append_left inside, Array.getElem?_eq_getElem inside]

theorem litHolds_append {code : Int} {holds : Bool} (read : litHolds model code = .ok holds) :
    litHolds (model ++ extra) code = .ok holds := by
  unfold litHolds at read ⊢
  obtain ⟨lit, isLit, read⟩ := bind_eq_ok_iff.mp read
  refine bind_eq_ok_iff.mpr ⟨lit, isLit, ?_⟩
  split at read
  · rename_i bit found
    rwa [getElem?_append_of_some found]
  · cases read

theorem clauseHolds_append {codes : List Int} {holds : Bool}
    (read : clauseHolds model codes = .ok holds) : clauseHolds (model ++ extra) codes = .ok holds := by
  induction codes with
  | nil => exact read
  | cons code rest inductionHypothesis =>
    unfold clauseHolds at read ⊢
    obtain ⟨first, isFirst, read⟩ := bind_eq_ok_iff.mp read
    refine bind_eq_ok_iff.mpr ⟨first, litHolds_append isFirst, ?_⟩
    cases first with
    | true => exact read
    | false => exact inductionHypothesis read

theorem clausesHold_append {codes : List (List Int)} {holds : Bool}
    (read : clausesHold model codes = .ok holds) : clausesHold (model ++ extra) codes = .ok holds := by
  induction codes with
  | nil => exact read
  | cons clause rest inductionHypothesis =>
    unfold clausesHold at read ⊢
    obtain ⟨first, isFirst, read⟩ := bind_eq_ok_iff.mp read
    refine bind_eq_ok_iff.mpr ⟨first, clauseHolds_append isFirst, ?_⟩
    cases first with
    | true => exact inductionHypothesis read
    | false => exact read

end Padding

/-- A model of a formula has an entry for every variable and makes it true. -/
def Models (cnf : Cnf) (model : Array Bool) : Prop :=
  model.size = cnf.numVars + 1 ∧ cnf.eval model = .ok true

end Cnf

/-- An engine decides a formula: it finds a model if there is one, and reports that
there is none otherwise. -/
structure Engine.Decides (engine : Engine) (cnf : Cnf) : Prop where
  sat : (∃ model, cnf.Models model) → ∃ model, engine cnf = .ok (some model) ∧ cnf.Models model
  unsat : (¬∃ model, cnf.Models model) → engine cnf = .ok none

namespace Engine

/-- What an engine that decides a formula answers makes the formula true. -/
theorem Decides.eval_eq {engine : Engine} {cnf : Cnf} {answer : Array Bool} (decides : engine.Decides cnf)
    (answered : engine cnf = .ok (some answer)) : cnf.eval answer = .ok true := by
  by_cases possible : ∃ model, cnf.Models model
  · obtain ⟨model, found, models⟩ := decides.sat possible
    cases answered.symm.trans found
    exact models.2
  · cases answered.symm.trans (decides.unsat possible)

/-- The assignments of a number of variables, as rows of truth values. -/
def rows (count : Nat) : List (List Bool) :=
  (List.replicate count [false, true]).sections

theorem mem_rows_iff {count : Nat} {row : List Bool} : row ∈ rows count ↔ row.length = count := by
  rw [rows, List.mem_sections]
  constructor
  · exact fun each => each.length_eq.trans List.length_replicate
  · rintro rfl
    induction row with
    | nil => exact .nil
    | cons bit row inductionHypothesis => exact .cons (by cases bit <;> simp) inductionHypothesis

/-- The engine that tries all assignments, one after the other. -/
def exhaustive : Engine := fun cnf =>
  .ok (((rows (cnf.numVars + 1)).map List.toArray).find? fun model =>
    (cnf.eval model).toOption == some true)

/-- Trying all assignments decides every formula. -/
theorem exhaustive_decides (cnf : Cnf) : exhaustive.Decides cnf := by
  have models_iff : ∀ model, cnf.Models model ↔
      model ∈ (rows (cnf.numVars + 1)).map List.toArray ∧ (cnf.eval model).toOption == some true := by
    intro model
    have tried : model ∈ (rows (cnf.numVars + 1)).map List.toArray ↔ model.size = cnf.numVars + 1 := by
      rw [List.mem_map]
      constructor
      · rintro ⟨row, member, rfl⟩
        exact mem_rows_iff.mp member
      · exact fun size => ⟨model.toList, mem_rows_iff.mpr size, rfl⟩
    have holds : (cnf.eval model).toOption == some true ↔ cnf.eval model = .ok true := by
      cases cnf.eval model <;> simp [Except.toOption]
    rw [tried, holds, Cnf.Models]
  cases found : ((rows (cnf.numVars + 1)).map List.toArray).find? fun model =>
      (cnf.eval model).toOption == some true with
  | none =>
    have unsat : ¬∃ model, cnf.Models model := by
      rintro ⟨model, models⟩
      obtain ⟨member, holds⟩ := (models_iff model).mp models
      exact List.find?_eq_none.mp found model member holds
    exact ⟨fun sat => (unsat sat).elim, fun _ => congrArg Except.ok found⟩
  | some model =>
    have holds := List.find?_some found
    have models := (models_iff model).mpr ⟨List.mem_of_find?_eq_some found, holds⟩
    exact ⟨fun _ => ⟨model, congrArg Except.ok found, models⟩, fun unsat => (unsat ⟨model, models⟩).elim⟩

end Engine

end Clausal
