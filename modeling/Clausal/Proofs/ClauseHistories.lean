import Mathlib
import Clausal.Proofs.Assertion
import Clausal.Proofs.Evolution

/-!
# Clause stores along histories

Whatever is done with a session, its clauses stay in normal form: they are different,
each goes up in its variables, and the variable of the literal known to be true is in no
other clause than the one that makes it true. Clauses and the literals of lowered
expressions stay where they are, and a clause that is added demands exactly that one of
its literals be true.

`Session.Retains` says this of a single action, and says which expressions it may give
literals to. No action overwrites literals: while the operands of an expression are
lowered, only expressions below it get literals, so it has none when its own are
remembered.
-/

namespace Clausal

/-- The variable of a positive literal is its number, or a smaller one where numbers
are too large for codes. -/
theorem Lit.var_le_of_ofVar {number : Nat} {lit : Lit} (made : ofVar number = .ok lit) :
    lit.var ≤ number := by
  have bounded : (Int.bmod number codeCount).natAbs ≤ number := by
    rw [Int.bmod_def, codeCount]
    split <;> omega
  unfold ofVar ofInt at made
  generalize Int.bmod number codeCount = code at made bounded
  split at made
  · cases made
  · cases made
    exact bounded

namespace ClauseStore

variable {store : ClauseStore} {clause : Clause}

/-- The clauses of a store are different, are found in it, and go up in their variables. -/
structure Tidy (store : ClauseStore) : Prop where
  found : ∀ clause ∈ store.toList, store.members.contains clause
  nodup : store.toList.Nodup
  increasing : ∀ clause ∈ store.toList, clause.Pairwise fun left right => left.var < right.var

theorem tidy_empty : ClauseStore.empty.Tidy := by
  refine ⟨?_, ?_, ?_⟩ <;> simp [empty, toList]

theorem isPrefix_insert (store : ClauseStore) (clause : Clause) :
    List.IsPrefix store.toList (store.insert clause).2.toList := by
  unfold insert
  split
  · exact List.prefix_rfl
  · simp [toList]

/-- A clause is added behind the others unless it is one of them. -/
theorem Tidy.insert (tidy : store.Tidy)
    (increasing : clause.Pairwise fun left right => left.var < right.var) :
    (store.insert clause).2.Tidy := by
  unfold ClauseStore.insert
  split
  · exact tidy
  · rename_i missing
    have isNew : clause ∉ store.toList := fun member => missing (tidy.found clause member)
    have clauses : (⟨store.clauses.push clause, store.members.insert clause⟩ : ClauseStore).toList =
        store.toList ++ [clause] := by simp [toList]
    refine ⟨fun other member => ?_, ?_, fun other member => ?_⟩
    · rw [clauses, List.mem_append, List.mem_singleton] at member
      rw [Std.HashSet.contains_insert, Bool.or_eq_true, beq_iff_eq]
      exact member.symm.imp Eq.symm (tidy.found other)
    · rw [clauses, List.nodup_append]
      refine ⟨tidy.nodup, List.nodup_singleton clause, fun old member new isClause => ?_⟩
      rw [List.mem_singleton] at isClause
      exact fun same => isNew (isClause ▸ same ▸ member)
    · rw [clauses, List.mem_append, List.mem_singleton] at member
      rcases member with old | rfl
      · exact tidy.increasing other old
      · exact increasing

end ClauseStore

namespace Session

variable {session before after : Session} {lit : Lit} {lits : List Lit} {touched more : Set ExprId}

/-- Literals are about variables of a session. -/
def Covers (session : Session) (lits : List Lit) : Prop :=
  ∀ lit ∈ lits, lit.var ≤ session.numVars

@[simp] theorem covers_nil : session.Covers [] :=
  fun _ member => absurd member List.not_mem_nil

@[simp] theorem covers_cons :
    session.Covers (lit :: lits) ↔ lit.var ≤ session.numVars ∧ session.Covers lits :=
  List.forall_mem_cons

@[simp] theorem covers_map_opposite : session.Covers (lits.map Lit.opposite) ↔ session.Covers lits := by
  simp [Covers]

/-- The clauses of a session and the literals that it remembers are in order. Whether the
literal known to be true has a variable of its own is certain only while the numbers of
variables are codes. -/
structure Tidy (session : Session) : Prop where
  closed : session.Closed
  store : session.store.Tidy
  apart : session.Live → ∀ top, session.top = some top → ∀ clause ∈ session.store.toList,
    clause ≠ [top] → ∀ lit ∈ clause, lit.var ≠ top.var
  cached : ∀ (e : ExprId) lits, session.literals[e]? = some lits → session.Covers lits.toList

theorem tidy_start (flatten : Bool) : (start flatten).Tidy :=
  ⟨closed_start flatten, ClauseStore.tidy_empty, fun _ _ isTop => by simp [start] at isTop,
    fun _ _ known => by simp [start] at known⟩

theorem Tidy.covers_top (tidy : session.Tidy) (isTop : session.top = some lit) : session.Covers [lit] :=
  tidy.closed.ranged [lit] (tidy.closed.top lit isTop)

/-- A later session has what an earlier one has, in the same places, and is in order if
that one is. Only expressions among those `touched` may have got literals. -/
structure Retains (touched : Set ExprId) (before after : Session) : Prop where
  numVars_le : before.numVars ≤ after.numVars
  clauses : List.IsPrefix before.store.toList after.store.toList
  literals : ∀ (e : ExprId) lits, before.literals[e]? = some lits → after.literals[e]? = some lits
  untouched : ∀ e : ExprId, e ∉ touched → after.literals[e]? = before.literals[e]?
  top : ∀ lit, before.top = some lit → after.top = some lit
  tidy : before.Tidy → after.Tidy

instance retains_preorder (touched : Set ExprId) : IsPreorder Session (Retains touched) where
  refl _ := ⟨le_rfl, List.prefix_rfl, fun _ _ => id, fun _ _ => rfl, fun _ => id, id⟩
  trans _ _ _ earlier later :=
    ⟨earlier.numVars_le.trans later.numVars_le, earlier.clauses.trans later.clauses,
      fun e lits known => later.literals e lits (earlier.literals e lits known),
      fun e outside => (later.untouched e outside).trans (earlier.untouched e outside),
      fun lit isTop => later.top lit (earlier.top lit isTop),
      fun tidy => later.tidy (earlier.tidy tidy)⟩

theorem Retains.mono (retains : before.Retains touched after) (inside : touched ⊆ more) :
    before.Retains more after :=
  ⟨retains.numVars_le, retains.clauses, retains.literals,
    fun e outside => retains.untouched e fun member => outside (inside member), retains.top,
    retains.tidy⟩

/-- A session that has the same literals retains them. -/
theorem retains_of_literals_eq (numVars_le : before.numVars ≤ after.numVars)
    (clauses : List.IsPrefix before.store.toList after.store.toList)
    (literals_eq : after.literals = before.literals)
    (top : ∀ lit, before.top = some lit → after.top = some lit) (tidy : before.Tidy → after.Tidy) :
    before.Retains touched after :=
  ⟨numVars_le, clauses, fun _ _ known => literals_eq ▸ known, fun _ _ => literals_eq ▸ rfl, top, tidy⟩

theorem Covers.later (covers : before.Covers lits) (retains : before.Retains touched after) :
    after.Covers lits :=
  fun lit member => (covers lit member).trans retains.numVars_le

section Steps

/-- There may be one more variable. -/
theorem retains_grow (session : Session) :
    session.Retains touched { session with numVars := session.numVars + 1 } := by
  refine retains_of_literals_eq (Nat.le_succ _) List.prefix_rfl rfl (fun _ => id) fun tidy => ?_
  refine ⟨tidy.closed.grow, tidy.store, fun live => tidy.apart ((Nat.le_succ _).trans_lt live), ?_⟩
  exact fun e lits known lit member => (tidy.cached e lits known lit member).trans (Nat.le_succ _)

/-- A clause in normal form may be stored. -/
theorem retains_insert {clause : Clause} (covered : session.Covers clause)
    (increasing : clause.Pairwise fun left right => left.var < right.var)
    (apart : ∀ top, session.top = some top → ∀ lit ∈ clause, lit.var ≠ top.var) :
    session.Retains touched { session with store := (session.store.insert clause).2 } := by
  refine retains_of_literals_eq le_rfl (session.store.isPrefix_insert clause) rfl (fun _ => id)
    fun tidy => ?_
  refine ⟨(Lower.keep_emits tidy.closed covered).closed, tidy.store.insert increasing, ?_, tidy.cached⟩
  intro live top isTop other member differs
  rcases (Lower.mem_toList_insert (tidy.closed.stored clause)).mp member with old | rfl
  · exact tidy.apart live top isTop other old differs
  · exact apart top isTop

/-- The literal of a new variable may be known to be true. -/
theorem retains_top (unknown : session.top = none) (covered : lit.var ≤ session.numVars + 1)
    (isNew : session.numVars + 1 < Lit.varLimit → lit.var = session.numVars + 1) :
    session.Retains touched { session with
      numVars := session.numVars + 1, top := some lit, store := (session.store.insert [lit]).2 } := by
  refine retains_of_literals_eq (Nat.le_succ _) (session.store.isPrefix_insert [lit]) rfl ?_
    fun tidy => ?_
  · exact fun other isTop => by simp [unknown] at isTop
  refine ⟨(Lower.keep_top_emits tidy.closed.grow covered).closed,
    tidy.store.insert (List.pairwise_singleton _ lit), ?_, ?_⟩
  · rintro live _ ⟨⟩ clause member differs other otherMember
    rcases (Lower.mem_toList_insert (tidy.closed.stored [lit])).mp member with old | same
    · have below := tidy.closed.ranged clause old other otherMember
      rw [isNew live]
      omega
    · exact absurd same differs
  · exact fun e lits known lit member => (tidy.cached e lits known lit member).trans (Nat.le_succ _)

/-- An expression without literals may get some. -/
theorem retains_remember {e : ExprId} {lits : Array Lit} (missing : session.literals[e]? = none)
    (inside : e ∈ touched) (covered : session.Covers lits.toList) :
    session.Retains touched { session with literals := session.literals.insert e lits } := by
  have other : ∀ x ≠ e, (session.literals.insert e lits)[x]? = session.literals[x]? := by
    intro x differs
    rw [Std.HashMap.getElem?_insert, if_neg]
    simpa using differs.symm
  refine ⟨le_rfl, List.prefix_rfl, fun x known found => ?_, fun x outside => ?_, fun _ => id,
    fun tidy => ?_⟩
  · rw [other x fun same => ?_, found]
    rw [same, missing] at found
    cases found
  · exact other x fun same => outside (same ▸ inside)
  · refine ⟨⟨tidy.closed.stored, tidy.closed.ranged, tidy.closed.top⟩, tidy.store, tidy.apart, ?_⟩
    intro x known found
    rcases eq_or_ne x e with rfl | differs
    · rw [Std.HashMap.getElem?_insert_self] at found
      exact Option.some.inj found ▸ covered
    · exact tidy.cached x known (other x differs ▸ found)

end Steps

end Session

namespace Lower

variable {α β : Type} {pool : Pool} {session : Session} {touched : Set ExprId}

attribute [local irreducible] Lit.ofVar

/-- The session retains what it has, and the literals of the result are about its
variables. -/
abbrev Settles (touched : Set ExprId) (action : Lower α) (session : Session)
    (litsOf : α → List Lit) : Prop :=
  Stateful.Tries (Session.Retains touched) action session
    (fun result after => after.Covers (litsOf result)) True

section Primitives

variable {litsOf : β → List Lit}

theorem fresh_settles (session : Session) : Settles touched fresh session fun lit => [lit] := by
  refine meets_fresh_of_forall (fun lit made => ⟨session.retains_grow, ?_⟩)
    fun _ _ => ⟨session.retains_grow, trivial⟩
  simpa using Lit.var_le_of_ofVar made

/-- The opposite of a literal is used. -/
theorem Settles.neg {lit : Lit} {next : Lit → Lower β}
    (rest : Settles touched (next lit.opposite) session litsOf) :
    Settles touched (Lower.neg lit >>= next) session litsOf :=
  Stateful.Tries.ofExcept trivial fun _ found => Lit.eq_opposite_of_neg found ▸ rest

theorem Settles.mapM_neg {inputs : List Lit} {next : List Lit → Lower β}
    (rest : Settles touched (next (inputs.map Lit.opposite)) session litsOf) :
    Settles touched (inputs.mapM Lower.neg >>= next) session litsOf := by
  induction inputs generalizing next with
  | nil => exact rest
  | cons input inputs inductionHypothesis =>
    rw [List.mapM_cons, bind_assoc]
    refine Settles.neg ?_
    rw [bind_assoc]
    exact inductionHypothesis rest

/-- A clause about variables of the session may be added. -/
theorem addClause_keeps {lits : Clause} (covered : session.Covers lits) :
    Stateful.Keeps (Session.Retains touched) (addClause lits) session := by
  refine meets_addClause_of_forall (fun clause normal => ?_) (fun _ => refl session)
    fun _ _ => refl session
  obtain ⟨increasing, apart⟩ := Clause.normalize_sorted normal
  refine Session.retains_insert (fun lit member => covered lit ?_) increasing apart
  exact (Clause.normalize_means normal).1 clause rfl lit member

theorem Settles.addClause {lits : Clause} {next : PUnit → Lower β} (covered : session.Covers lits)
    (rest : ∀ after, session.Retains touched after → Settles touched (next ⟨⟩) after litsOf) :
    Settles touched (Lower.addClause lits >>= next) session litsOf :=
  (addClause_keeps covered).tries.bind fun _ after retains _ => rest after retains

theorem Settles.forM {items : List α} {step : α → Lower PUnit} {next : PUnit → Lower β}
    (each : ∀ item ∈ items, ∀ after, session.Retains touched after →
      Stateful.Keeps (Session.Retains touched) (step item) after)
    (rest : ∀ after, session.Retains touched after → Settles touched (next ⟨⟩) after litsOf) :
    Settles touched (items.forM step >>= next) session litsOf :=
  (Stateful.Keeps.forM each).tries.bind fun _ after retains _ => rest after retains

/-- Results for every item of a list are about variables of the session. -/
theorem mapM_settles {items : List α} {step : α → Lower β} (litsOf : β → List Lit)
    (each : ∀ item ∈ items, ∀ after, session.Retains touched after →
      Settles touched (step item) after litsOf) :
    Stateful.Tries (Session.Retains touched) (items.mapM step) session
      (fun results after => ∀ result ∈ results, after.Covers (litsOf result)) True := by
  refine (Stateful.Tries.mapM (fun _ result after => after.Covers (litsOf result))
    (fun _ _ _ _ retains covers => covers.later retains) each).mono (fun results after _ pairs => ?_) id
  clear each
  induction pairs with
  | nil => exact fun _ member => absurd member List.not_mem_nil
  | cons covers _ inductionHypothesis => exact List.forall_mem_cons.mpr ⟨covers, inductionHypothesis⟩

theorem mapM_lits_settles {items : List α} {step : α → Lower Lit}
    (each : ∀ item ∈ items, ∀ after, session.Retains touched after →
      Settles touched (step item) after fun lit => [lit]) :
    Settles touched (items.mapM step) session fun lits => lits :=
  (mapM_settles (fun lit => [lit]) each).mono
    (fun _ _ _ covers lit member => covers lit member lit List.mem_cons_self) id

end Primitives

section Gates

theorem top_settles (tidy : session.Tidy) : Settles touched top session fun lit => [lit] := by
  unfold top
  refine Stateful.Tries.get ?_
  split
  · rename_i lit isTop
    exact Stateful.Tries.pure (tidy.covers_top isTop)
  · rename_i unknown
    -- Until its clause is stored, the literal is known to be true without one. So the
    -- three changes of the session are taken as one.
    unfold Stateful.Tries
    rw [Stateful.meets_bind]
    refine meets_fresh_of_forall (fun lit made => ?_) fun _ _ => ⟨session.retains_grow, trivial⟩
    have covered := Lit.var_le_of_ofVar made
    refine ⟨Session.retains_top unknown covered fun small => ?_, by simpa using covered⟩
    rw [Lit.ofVar_eq (Nat.succ_pos _) small] at made
    rw [← Except.ok.inj made, Lit.var_positive]

variable {inputs : List Lit}

theorem andGate_settles (covered : session.Covers inputs) :
    Settles touched (andGate inputs) session fun lit => [lit] := by
  unfold andGate
  split
  · exact Stateful.Tries.pure covered
  · refine (fresh_settles session).bind fun out first made outCovered => Settles.neg ?_
    rw [Session.covers_cons] at outCovered
    have inputsCovered := covered.later made
    refine Settles.forM (fun input member after retains => addClause_keeps ?_) fun second clauses => ?_
    · exact Session.Covers.later (by simpa using ⟨outCovered.1, inputsCovered input member⟩) retains
    refine Settles.mapM_neg (Settles.addClause ?_ fun after last => Stateful.Tries.pure ?_)
    · exact Session.Covers.later (by simpa using ⟨outCovered.1, inputsCovered⟩) clauses
    · exact Session.Covers.later (Session.Covers.later (by simpa using outCovered.1) clauses) last

theorem orGate_settles (covered : session.Covers inputs) :
    Settles touched (orGate inputs) session fun lit => [lit] := by
  unfold orGate
  split
  · exact Stateful.Tries.pure covered
  · refine (fresh_settles session).bind fun out first made outCovered => ?_
    rw [Session.covers_cons] at outCovered
    have inputsCovered := covered.later made
    refine Settles.forM (fun input member after retains => ?_) fun second clauses => Settles.neg ?_
    · refine Stateful.Keeps.ofExcept fun _ found => addClause_keeps ?_
      rw [Lit.eq_opposite_of_neg found]
      exact Session.Covers.later (by simpa using ⟨outCovered.1, inputsCovered input member⟩) retains
    refine Settles.addClause ?_ fun after last => Stateful.Tries.pure ?_
    · exact Session.Covers.later (by simpa using ⟨outCovered.1, inputsCovered⟩) clauses
    · exact Session.Covers.later (Session.Covers.later (by simpa using outCovered.1) clauses) last

theorem xorGate_settles {a b : Lit} (covered : session.Covers [a, b]) :
    Settles touched (xorGate a b) session fun lit => [lit] := by
  unfold xorGate
  refine (fresh_settles session).bind fun out first made outCovered => ?_
  have all : first.Covers [out, a, b] := by
    have inputsCovered := covered.later made
    simp only [Session.covers_cons] at outCovered inputsCovered ⊢
    exact ⟨outCovered.1, inputsCovered⟩
  refine Settles.neg (Settles.neg (Settles.neg ?_))
  refine Settles.addClause (by simpa using all) fun second once => ?_
  replace all := all.later once
  refine Settles.addClause (by simpa using all) fun third twice => ?_
  replace all := all.later twice
  refine Settles.addClause (by simpa using all) fun fourth thrice => ?_
  replace all := all.later thrice
  refine Settles.addClause (by simpa using all) fun fifth last => Stateful.Tries.pure ?_
  replace all := all.later last
  simp only [Session.covers_cons] at all
  simpa using all.1

theorem agreement_settles {a b : Lit} (covered : session.Covers [a, b]) :
    Settles touched (agreement a b) session fun lit => [lit] := by
  refine (xorGate_settles covered).bind fun differ after _ differCovered => ?_
  rw [← bind_pure (Lower.neg differ)]
  exact Settles.neg (Stateful.Tries.pure (by simpa using differCovered))

theorem agreements_settles {xs ys : Array Lit} (xsCovered : session.Covers xs.toList)
    (ysCovered : session.Covers ys.toList) :
    Settles touched (agreements xs ys) session fun lits => lits := by
  unfold agreements
  refine mapM_lits_settles fun pair member after retains => ?_
  obtain ⟨xMember, yMember⟩ := List.of_mem_zip (show (pair.1, pair.2) ∈ _ from member)
  refine agreement_settles (Session.Covers.later ?_ retains)
  simpa using ⟨xsCovered _ xMember, ysCovered _ yMember⟩

theorem variableBits_settles (e : ExprId) (ty : Ty) :
    Settles touched (variableBits e ty) session Array.toList := by
  refine (mapM_lits_settles fun _ _ after _ => fresh_settles after).bind fun lits after _ covered => ?_
  refine ⟨Session.retains_of_literals_eq le_rfl List.prefix_rfl rfl (fun _ => id) fun tidy => ?_, covered⟩
  have closed := tidy.closed
  exact ⟨⟨closed.stored, closed.ranged, closed.top⟩, tidy.store, tidy.apart, tidy.cached⟩

theorem constantBits_settles (tidy : session.Tidy) (ty : Ty) (value : Value) :
    Settles touched (constantBits ty value) session Array.toList := by
  refine (top_settles tidy).bind fun yes after _ covered => Settles.neg ?_
  refine Stateful.Tries.ofExcept trivial fun bits _ => Stateful.Tries.pure fun lit member => ?_
  obtain ⟨bit, -, rfl⟩ := List.mem_map.mp member
  cases bit <;> simpa using covered

end Gates

section Combination

variable {e : ExprId} {lits : Array Lit}

theorem sole_settles (covered : session.Covers lits.toList) :
    Settles touched (sole pool e lits) session fun lit => [lit] := by
  unfold sole
  split
  · rename_i lit isSole
    rw [isSole] at covered
    exact Stateful.Tries.pure covered
  · exact Stateful.Tries.ofExcept trivial fun _ _ => Stateful.Tries.throw trivial

variable {operands : List (ExprId × Array Lit)}

theorem soles_settles (covered : ∀ operand ∈ operands, session.Covers operand.2.toList) :
    Settles touched (soles pool operands) session fun lits => lits := by
  unfold soles
  exact mapM_lits_settles fun operand member after retains =>
    sole_settles ((covered operand member).later retains)

theorem component_covered {ty : Ty} {index : Nat} {part : Array Lit}
    (covered : session.Covers lits.toList) (found : component ty index lits = .ok part) :
    session.Covers part.toList := by
  unfold component at found
  split at found
  · obtain ⟨field, -, isPart⟩ := bind_eq_ok_iff.mp found
    obtain ⟨-, rfl⟩ := slice_eq_ok_iff.mp isPart
    intro lit member
    rw [Array.toList_extract] at member
    exact covered lit (List.mem_of_mem_drop (List.mem_of_mem_take member))
  · cases found

theorem bitAt_covered {index : Nat} {lit : Lit} (covered : session.Covers lits.toList)
    (found : bitAt lits index = .ok lit) : lit.var ≤ session.numVars := by
  unfold bitAt at found
  split at found
  · rename_i known
    cases found
    exact covered lit (Array.mem_toList_iff.mpr (Array.mem_of_getElem? known))
  · cases found

/-- A literal may be the only one of an expression. -/
theorem Settles.single {action : Lower Lit} (settles : Settles touched action session fun lit => [lit]) :
    Settles touched (do let out ← action; return #[out]) session Array.toList :=
  settles.bind fun _ _ _ covered => Stateful.Tries.pure covered

/-- The literals of an operator are about variables of the session if those of the
operands are. -/
theorem combine_settles (op : Op) (covered : ∀ operand ∈ operands, session.Covers operand.2.toList) :
    Settles touched (combine pool op operands) session Array.toList := by
  have disjunction : Settles touched (do
      let inputs ← soles pool operands
      let out ← orGate inputs
      return #[out]) session Array.toList :=
    (soles_settles covered).bind fun _ _ _ inputsCovered => (orGate_settles inputsCovered).single
  have joined : session.Covers (operands.foldl (fun lits operand => lits ++ operand.2) #[]).toList := by
    intro lit member
    rw [toList_foldl_append, List.nil_append, List.mem_flatMap] at member
    obtain ⟨operand, operandMember, inside⟩ := member
    exact covered operand operandMember lit inside
  unfold combine
  split
  · rename_i operand rest
    refine (sole_settles (covered operand List.mem_cons_self)).bind fun a after _ aCovered => ?_
    exact Settles.neg (Stateful.Tries.pure (by simpa using aCovered))
  · refine (soles_settles covered).bind fun inputs after _ inputsCovered => ?_
    exact (andGate_settles inputsCovered).single
  · exact disjunction
  · exact disjunction
  · rename_i left right rest
    refine (sole_settles (covered left (by simp))).bind fun a first toFirst aCovered => ?_
    have rightCovered := (covered right (by simp)).later toFirst
    refine (sole_settles rightCovered).bind fun b second toSecond bCovered => ?_
    have aLater := aCovered.later toSecond
    rw [Session.covers_cons] at aLater
    exact (xorGate_settles (Session.covers_cons.mpr ⟨aLater.1, bCovered⟩)).single
  · rename_i left right rest
    refine (agreements_settles (covered left (by simp)) (covered right (by simp))).bind
      fun inputs after _ inputsCovered => ?_
    exact (andGate_settles inputsCovered).single
  · rename_i index operand rest
    refine Stateful.Tries.ofExcept trivial fun lit found => Stateful.Tries.pure ?_
    simpa using bitAt_covered (covered operand List.mem_cons_self) found
  · exact Stateful.Tries.pure joined
  · exact Stateful.Tries.pure joined
  · rename_i index operand rest
    refine Stateful.Tries.ofExcept trivial fun ty _ => ?_
    rw [← bind_pure (Stateful.ofExcept _)]
    refine Stateful.Tries.ofExcept trivial fun part found => Stateful.Tries.pure ?_
    exact component_covered (covered operand List.mem_cons_self) found
  · exact Stateful.Tries.throw trivial

end Combination

section Expressions

variable {e : ExprId}

theorem remember_settles {lits : Array Lit} (missing : session.literals[e]? = none)
    (inside : e ∈ touched) (covered : session.Covers lits.toList) :
    Settles touched (do remember e lits; return lits) session Array.toList :=
  ⟨Session.retains_remember missing inside covered, covered⟩

/-- Lowering an expression gives literals to it and to expressions below it. -/
theorem lower_settles (pool : Pool) (e : ExprId) (tidy : session.Tidy)
    (inside : ∀ x : ExprId, x.index ≤ e.index → x ∈ touched) :
    Settles touched (lower pool e) session Array.toList := by
  induction index : e.index using Nat.strong_induction_on generalizing e session touched with
  | h index inductionHypothesis =>
    -- Only expressions below `e` are touched before its literals are remembered.
    have node : Settles { x | x.index < e.index } (lowerNode pool e) session Array.toList := by
      unfold lowerNode
      split
      · exact variableBits_settles e _
      · exact constantBits_settles tidy _ _
      · rename_i op operands stored
        split
        · refine (mapM_settles (fun lowered => lowered.2.toList) fun operand member after retains => ?_).bind
            fun lowered after _ covered => combine_settles op covered
          have below : operand.index < e.index := Pool.index_lt_of_node? stored member
          have lowers : Settles { x | x.index < e.index } (lower pool operand) after Array.toList :=
            inductionHypothesis operand.index (index ▸ below) operand (retains.tidy tidy)
              (fun x bound => bound.trans_lt below) rfl
          exact lowers.bind fun lits last _ covered => Stateful.Tries.pure covered
        · exact Stateful.Tries.throw trivial
      · exact Stateful.Tries.throw trivial
    rw [lower_eq]
    refine Stateful.Tries.get ?_
    split
    · rename_i lits known
      exact Stateful.Tries.pure (tidy.cached e lits known)
    · rename_i missing
      have stillMissing : Stateful.Tries (Session.Retains { x | x.index < e.index }) (lowerNode pool e)
          session (fun lits after => after.Covers lits.toList ∧ after.literals[e]? = none) True :=
        node.mono (fun lits after retains covered =>
          ⟨covered, (retains.untouched e (lt_irrefl e.index)).trans missing⟩) id
      have widened : ∀ before after : Session, before.Retains { x | x.index < e.index } after →
          before.Retains touched after :=
        fun _ _ retains => retains.mono fun x below => inside x (le_of_lt below)
      refine (stillMissing.weaken widened).bind ?_
      rintro lits after - ⟨covered, afterMissing⟩
      exact remember_settles afterMissing (inside e le_rfl) covered

theorem literal_settles (pool : Pool) (e : ExprId) (tidy : session.Tidy) :
    Settles Set.univ (literal pool e) session fun lit => [lit] :=
  (lower_settles pool e tidy fun x _ => Set.mem_univ x).bind fun _ _ _ covered => sole_settles covered

theorem assertLiteral_keeps (pool : Pool) (e : ExprId) (tidy : session.Tidy) :
    Stateful.Keeps (Session.Retains Set.univ) (assertLiteral pool e) session :=
  ((literal_settles pool e tidy).bind fun _ _ _ covered => (addClause_keeps covered).tries).keeps

theorem assertDisjunction_keeps {operands : List ExprId} (tidy : session.Tidy) :
    Stateful.Keeps (Session.Retains Set.univ)
      (do let lits ← operands.mapM (literal pool); addClause lits) session := by
  have lowers : Settles Set.univ (operands.mapM (literal pool)) session fun lits => lits :=
    mapM_lits_settles fun operand _ after retains => literal_settles pool operand (retains.tidy tidy)
  exact (lowers.bind fun lits after _ covered => (addClause_keeps covered).tries).keeps

theorem assert_keeps (pool : Pool) (e : ExprId) (tidy : session.Tidy) :
    Stateful.Keeps (Session.Retains Set.univ) (assert pool e) session := by
  induction index : e.index using Nat.strong_induction_on generalizing e session with
  | h index inductionHypothesis =>
    rw [assert_eq]
    refine Stateful.Keeps.ofExcept fun ty _ => ?_
    split
    · unfold assertNode
      split
      · rename_i operands stored
        refine Stateful.Keeps.get ?_
        split
        · refine Stateful.Keeps.forM fun operand member after retains => ?_
          exact inductionHypothesis operand.index (index ▸ Pool.index_lt_of_node? stored member) operand
            (retains.tidy tidy) rfl
        · exact assertLiteral_keeps pool e tidy
      · exact assertDisjunction_keeps tidy
      · exact assertDisjunction_keeps tidy
      · exact assertLiteral_keeps pool e tidy
    · exact Stateful.Keeps.throw

/-- In a new session the literal known to be true is made for the first constant. -/
theorem lower_true_ends (flatten : Bool) (stored : pool.node? e = some ⟨.bool, .const (.bool true)⟩) :
    ∃ after, lower pool e (.start flatten) = .ok #[.positive 1 Nat.one_pos] after ∧ after.numVars = 1 ∧
      after.top = some (.positive 1 Nat.one_pos) ∧
        after.store.toList = [[.positive 1 Nat.one_pos]] := by
  have missing : (Session.start flatten).literals[e]? = none := by simp [Session.start]
  have unknown : (Session.start flatten).top = none := rfl
  have meets : Stateful.Meets (lower pool e) (.start flatten) (fun lits after =>
      lits = #[.positive 1 Nat.one_pos] ∧ after.numVars = 1 ∧
        after.top = some (.positive 1 Nat.one_pos) ∧
          after.store.toList = [[.positive 1 Nat.one_pos]]) fun _ _ => False := by
    simp only [lower_eq, Stateful.meets_bind, Stateful.meets_get, missing, lowerNode, stored,
      constantBits, top, unknown]
    refine meets_fresh_of_small (by simp [Session.start, Lit.varLimit]) ?_
    have negated : (Lit.positive 1 Nat.one_pos).neg = .ok (Lit.positive 1 Nat.one_pos).opposite :=
      Lit.neg_eq (by simp [Lit.varLimit])
    have bits : Ty.bool.toBits (.bool true) = .ok [true] := rfl
    simp only [keep, remember, neg, Session.start, Nat.zero_add, negated, bits, Stateful.meets_pure,
      Stateful.meets_modify, Stateful.meets_ofExcept_ok]
    simp [ClauseStore.insert, ClauseStore.empty, ClauseStore.toList]
  obtain ⟨lits, after, ended, rfl, ends⟩ := meets.exists_ok
  exact ⟨after, ended, ends⟩

end Expressions

end Lower

namespace Session

variable {flatten : Bool} {session after : Session}

/-- What may be done with a session: an expression is lowered or asserted, or a clause
about variables of the session is added. The session ends up in the state in which this
succeeds or fails. -/
inductive Call (session : Session) : Session → Prop where
  | lower (pool : Pool) (e : ExprId) : Call session ((Lower.lower pool e).final session)
  | assert (pool : Pool) (e : ExprId) : Call session ((Lower.assert pool e).final session)
  | addClause {lits : Clause} (covered : session.Covers lits) :
      Call session ((Lower.addClause lits).final session)

/-- One session comes from another by calls. -/
abbrev Calls : Session → Session → Prop :=
  Relation.ReflTransGen Call

theorem Call.retains (call : session.Call after) (tidy : session.Tidy) :
    session.Retains Set.univ after := by
  cases call with
  | lower pool e => exact (Lower.lower_settles pool e tidy fun x _ => Set.mem_univ x).keeps.final
  | assert pool e => exact (Lower.assert_keeps pool e tidy).final
  | addClause covered => exact (Lower.addClause_keeps covered).final

theorem Calls.retains (calls : session.Calls after) (tidy : session.Tidy) :
    session.Retains Set.univ after := by
  induction calls with
  | refl => exact refl session
  | tail _ call inductionHypothesis =>
    exact IsTrans.trans _ _ _ inductionHypothesis (call.retains (inductionHypothesis.tidy tidy))

/-- Whatever is done with a session, its clauses are different, each goes up in its
variables, which are variables of the session, and the variable of the literal known to be
true is only in the clause that makes it true. The clauses, the literals of lowered
expressions and the literal known to be true stay as they are. A clause that is added
demands exactly that one of its literals be true.

That the literal known to be true is kept apart, and that a clause can be added, is said
of a live session only, one with fewer than `2 ^ 31` variables. From that number on the
literals of new variables are those of earlier ones, and one of them has no negation. -/
theorem Calls.clauses_normal (calls : (start flatten).Calls session) :
    session.store.toList.Nodup ∧
    (∀ clause ∈ session.store.toList, clause.Pairwise fun left right => left.var < right.var) ∧
    (session.Live → ∀ top, session.top = some top → ∀ clause ∈ session.store.toList,
      clause ≠ [top] → ∀ lit ∈ clause, lit.var ≠ top.var) ∧
    (∀ clause ∈ session.store.toList, ∀ lit ∈ clause, 1 ≤ lit.var ∧ lit.var ≤ session.numVars) ∧
    (∀ (e : ExprId) lits, session.literals[e]? = some lits →
      ∀ lit ∈ lits, 1 ≤ lit.var ∧ lit.var ≤ session.numVars) ∧
    (∀ after, session.Calls after →
      List.IsPrefix session.store.toList after.store.toList ∧
      (∀ (e : ExprId) lits, session.literals[e]? = some lits → after.literals[e]? = some lits) ∧
      ∀ top, session.top = some top → after.top = some top) ∧
    ∀ lits : Clause, (∀ lit ∈ lits, lit.var ≤ session.numVars) →
      (session.Live → ∃ after, Lower.addClause lits session = .ok () after) ∧
      ∀ after, Lower.addClause lits session = .ok () after →
        ∀ truth, after.Satisfied truth ↔ session.Satisfied truth ∧ Clause.Holds truth lits := by
  have tidy := (calls.retains (tidy_start flatten)).tidy (tidy_start flatten)
  refine ⟨tidy.store.nodup, tidy.store.increasing, tidy.apart,
    fun clause member lit litMember => ?clauses,
    fun e lits known lit member => ?literals, fun after further => ?kept, fun lits covered => ?exact⟩
  case clauses => exact ⟨lit.var_pos, tidy.closed.ranged clause member lit litMember⟩
  case literals => exact ⟨lit.var_pos, tidy.cached e lits known lit (Array.mem_toList_iff.mpr member)⟩
  case kept =>
    have retains := further.retains tidy
    exact ⟨retains.clauses, retains.literals, retains.top⟩
  case exact =>
    have emits := Lower.addClause_emits tidy.closed covered
    refine ⟨fun live => ?_, fun after ended => (emits.of_ok ended).satisfied_iff⟩
    obtain ⟨_, after, ended, -⟩ := Stateful.Meets.exists_ok
      (emits.mono (fun _ _ => id) fun _ _ refused => refused.2 live)
    exact ⟨after, ended⟩

/-- The opposite of the literal known to be true is left out of a clause. Without another
literal the clause is empty, and the session that has it demands what cannot be. -/
theorem clauses_normal_of_false :
    ∃ (workspace : Workspace PassMemory) (yes : ExprId) (session after : Session) (top : Lit),
      workspace.Evolved ∧ session = (Lower.lower workspace.pool yes).final (.start true) ∧
      session.top = some top ∧ Lower.addClause [top.opposite] session = .ok () after ∧
      List.IsPrefix [[top]] after.store.toList ∧ ∀ truth, ¬after.Satisfied truth := by
  obtain ⟨workspace, yes, -, -, evolves, stored, -⟩ :=
    Workspace.exists_evolved_conjunction 0 fun _ => 0
  obtain ⟨session, ended, count, isTop, clauses⟩ := Lower.lower_true_ends true stored
  have isFinal : session = (Lower.lower workspace.pool yes).final (.start true) := by
    rw [Stateful.final, ended]
  have calls : (start true).Calls session := isFinal ▸ .single (.lower workspace.pool yes)
  have live : session.Live := by
    rw [Live, count, Lit.varLimit]
    norm_num
  obtain ⟨-, -, -, -, -, kept, exact⟩ := calls.clauses_normal
  have covered : ∀ lit ∈ [(Lit.positive 1 Nat.one_pos).opposite], lit.var ≤ session.numVars := by
    simp [count]
  obtain ⟨succeeds, satisfied_iff⟩ := exact _ covered
  obtain ⟨after, added⟩ := succeeds live
  have further : session.Calls after := by
    have last : (Lower.addClause [(Lit.positive 1 Nat.one_pos).opposite]).final session = after := by
      rw [Stateful.final, added]
    exact last ▸ .single (.addClause covered)
  refine ⟨workspace, yes, session, after, _, ⟨0, _, evolves⟩, isFinal, isTop, added, ?_, ?_⟩
  · exact clauses ▸ (kept after further).1
  · intro truth satisfied
    obtain ⟨earlier, holds⟩ := (satisfied_iff after added truth).mp satisfied
    have member : [Lit.positive 1 Nat.one_pos] ∈ session.store.toList := by simp [clauses]
    have demanded : (Lit.positive 1 Nat.one_pos).holds truth = true := by
      simpa [Clause.Holds] using earlier _ member
    have denied : (Lit.positive 1 Nat.one_pos).opposite.holds truth = true := by
      simpa [Clause.Holds] using holds
    rw [Lit.holds_opposite, demanded] at denied
    cases denied

end Session

end Clausal
