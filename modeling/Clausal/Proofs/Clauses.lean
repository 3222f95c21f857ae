import Mathlib
import Clausal.Session
import Clausal.Proofs.Outcome

/-!
# Truth of literals, clauses and sessions

Assignments give truth values to the variables of clauses. The normal form of a
clause holds in the same assignments as the clause, provided that the literal
known to be true is so.
-/

namespace Clausal

/-- Truth values of the variables of clauses. -/
abbrev Assignment := Nat → Bool

namespace Lit

variable {truth other : Assignment} {lit : Lit}

/-- The truth of a literal in an assignment. -/
def holds (truth : Assignment) (lit : Lit) : Bool :=
  lit.eval (truth lit.var)

/-- The number of variables below `2 ^ 31`, whose literals have opposites. -/
def varLimit : Nat :=
  2 ^ 31

/-- The positive literal of a variable. -/
def positive (number : Nat) (nonzero : 0 < number) : Lit :=
  ⟨number, by omega⟩

/-- The literal with the opposite sign. -/
def opposite (lit : Lit) : Lit :=
  ⟨-lit.code, neg_ne_zero.mpr lit.nonzero⟩

theorem var_pos (lit : Lit) : 0 < lit.var :=
  Int.natAbs_pos.mpr lit.nonzero

@[simp] theorem var_positive {number : Nat} (nonzero : 0 < number) :
    (positive number nonzero).var = number := rfl

@[simp] theorem holds_positive {number : Nat} (nonzero : 0 < number) :
    (positive number nonzero).holds truth = truth number := by
  have notNegated : (positive number nonzero).isNegated = false :=
    decide_eq_false (Int.natCast_nonneg number).not_gt
  simp [holds, eval, notNegated]

@[simp] theorem var_opposite (lit : Lit) : lit.opposite.var = lit.var :=
  Int.natAbs_neg lit.code

@[simp] theorem holds_opposite (truth : Assignment) (lit : Lit) :
    lit.opposite.holds truth = !lit.holds truth := by
  have signs : lit.opposite.isNegated = !lit.isNegated := by
    have nonzero := lit.nonzero
    unfold isNegated opposite
    by_cases negative : lit.code < 0
    · simp [negative, negative.le]
    · have positive : 0 < lit.code := by omega
      simp [negative, positive]
  rw [holds, holds, var_opposite, eval, eval, signs]
  cases truth lit.var <;> cases lit.isNegated <;> rfl

/-- Different literals of one variable are opposites. -/
theorem eq_opposite_of_var_eq {left right : Lit} (sameVar : left.var = right.var)
    (differ : left ≠ right) : right = left.opposite := by
  obtain ⟨code, nonzero⟩ := left
  obtain ⟨other, otherNonzero⟩ := right
  rcases Int.natAbs_eq_natAbs_iff.mp sameVar with same | negated
  · exact absurd (by simpa using same) differ
  · change code = -other at negated
    simp only [opposite, Lit.mk.injEq]
    omega

/-- A literal of a variable below the limit has an opposite. -/
theorem neg_eq (small : lit.var < varLimit) : lit.neg = .ok lit.opposite := by
  have notLeast : lit.code ≠ leastCode := by
    intro least
    simp [var, least, leastCode, varLimit] at small
  rw [neg, if_neg notLeast]
  rfl

theorem eq_opposite_of_neg {other : Lit} (found : lit.neg = .ok other) : other = lit.opposite := by
  unfold neg at found
  split at found
  · cases found
  · exact (Except.ok.inj found).symm

/-- A variable below the limit has a positive literal. -/
theorem ofVar_eq {number : Nat} (nonzero : 0 < number) (small : number < varLimit) :
    ofVar number = .ok (positive number nonzero) := by
  have code : Int.bmod number codeCount = number := by
    unfold varLimit at small
    unfold codeCount
    rw [Int.bmod_eq_of_le] <;> omega
  unfold ofVar ofInt
  simp only [code]
  rw [dif_neg (by omega)]
  rfl

/-- Assignments that agree up to a bound give literals up to it the same truth. -/
theorem holds_congr (same : truth lit.var = other lit.var) : lit.holds truth = lit.holds other := by
  rw [holds, holds, same]

end Lit

namespace Clause

variable {truth : Assignment} {top : Option Lit} {lits clause : Clause}

/-- Some literal of a clause is true. -/
def Holds (truth : Assignment) (clause : Clause) : Prop :=
  ∃ lit ∈ clause, lit.holds truth

theorem filterAuxM_eq_ok {step : Lit → Except Fault Bool} {test : Lit → Bool} {items kept : List Lit}
    (each : ∀ item ∈ items, step item = .ok (test item)) :
    items.filterAuxM step kept = .ok ((items.filter test).reverse ++ kept) := by
  induction items generalizing kept with
  | nil => rfl
  | cons item items inductionHypothesis =>
    have others := fun next member => each next (List.mem_cons_of_mem item member)
    unfold List.filterAuxM
    rw [each item List.mem_cons_self]
    simp only [bind, Except.bind] at inductionHypothesis ⊢
    cases passes : test item <;> simp [passes, inductionHypothesis others, cond]

theorem exists_of_filterAuxM_eq_ok {step : Lit → Except Fault Bool} {items kept result : List Lit}
    (ended : items.filterAuxM step kept = .ok result) :
    ∀ item ∈ items, ∃ passes, step item = .ok passes := by
  induction items generalizing kept with
  | nil => exact fun _ member => absurd member List.not_mem_nil
  | cons item items inductionHypothesis =>
    unfold List.filterAuxM at ended
    obtain ⟨passes, tested, rest⟩ := bind_eq_ok_iff.mp ended
    exact List.forall_mem_cons.mpr ⟨⟨passes, tested⟩, inductionHypothesis rest⟩

theorem withoutFalse_eq (signed : ∀ lit ∈ lits, lit.neg = .ok lit.opposite) :
    withoutFalse top lits = .ok (lits.filter fun lit => top != some lit.opposite) := by
  unfold withoutFalse List.filterM
  have tested : ∀ lit ∈ lits, (do let opposite ← lit.neg; return top != some opposite) =
      (.ok (top != some lit.opposite) : Except Fault Bool) := by
    intro lit member
    rw [signed lit member]
    rfl
  rw [filterAuxM_eq_ok tested]
  simp [bind, Except.bind, pure, Except.pure]

/-- The literals of a clause that has a normal form have opposites. -/
theorem signed_of_normalize {result : Option Clause} (normal : normalize top lits = .ok result) :
    ∀ lit ∈ lits, lit.neg = .ok lit.opposite := by
  intro lit member
  obtain ⟨kept, filtered, -⟩ := bind_eq_ok_iff.mp normal
  obtain ⟨latestFirst, ended, -⟩ := bind_eq_ok_iff.mp filtered
  obtain ⟨passes, tested⟩ := exists_of_filterAuxM_eq_ok ended lit member
  obtain ⟨other, found, -⟩ := bind_eq_ok_iff.mp tested
  rw [found, Lit.eq_opposite_of_neg found]

/-- Repetitions next to each other are left out. The latest literals come first in
`kept`. -/
theorem eraseRepsBy_loop_spec {lit : Lit} (rest : Clause) {kept : Clause}
    (chain : (lit :: kept).IsChain (· ≠ ·)) :
    (List.eraseRepsBy.loop (· == ·) lit rest kept).IsChain (· ≠ ·) ∧
      ∀ other, other ∈ List.eraseRepsBy.loop (· == ·) lit rest kept ↔
        other ∈ lit :: rest ∨ other ∈ kept := by
  induction rest generalizing lit kept with
  | nil =>
    refine ⟨?_, fun other => by simp [List.eraseRepsBy.loop, or_comm]⟩
    rw [List.eraseRepsBy.loop, List.isChain_reverse]
    exact chain.imp fun _ _ => Ne.symm
  | cons next rest inductionHypothesis =>
    rw [List.eraseRepsBy.loop]
    cases same : lit == next with
    | true =>
      obtain rfl := eq_of_beq same
      obtain ⟨isChain, members⟩ := inductionHypothesis chain
      exact ⟨isChain, fun other => by simp [members]⟩
    | false =>
      have differ : next ≠ lit := fun equal => by simp [equal] at same
      obtain ⟨isChain, members⟩ := inductionHypothesis (List.isChain_cons_cons.mpr ⟨differ, chain⟩)
      refine ⟨isChain, fun other => ?_⟩
      rw [members]
      simp only [List.mem_cons]
      tauto

theorem eraseReps_spec (lits : Clause) : lits.eraseReps.IsChain (· ≠ ·) ∧
    ∀ lit, lit ∈ lits.eraseReps ↔ lit ∈ lits := by
  cases lits with
  | nil => exact ⟨.nil, fun _ => Iff.rfl⟩
  | cons first rest =>
    obtain ⟨isChain, members⟩ := eraseRepsBy_loop_spec rest (List.isChain_singleton first)
    exact ⟨isChain, fun lit => (members lit).trans (by simp)⟩

/-- A clause with two different literals of one variable next to each other holds. -/
theorem holds_of_repeatsVariable (chain : clause.IsChain (· ≠ ·)) (repeated : repeatsVariable clause) :
    clause.Holds truth := by
  induction clause with
  | nil => cases repeated
  | cons first rest inductionHypothesis =>
    cases rest with
    | nil => cases repeated
    | cons second rest =>
      rw [List.isChain_cons_cons] at chain
      unfold repeatsVariable at repeated
      rcases Bool.or_eq_true_iff.mp repeated with same | later
      · have opposed := Lit.eq_opposite_of_var_eq (eq_of_beq same) chain.1
        cases holds : first.holds truth with
        | true => exact ⟨first, by simp, holds⟩
        | false => exact ⟨second, by simp, by rw [opposed, Lit.holds_opposite, holds]; rfl⟩
      · obtain ⟨lit, member, holds⟩ := inductionHypothesis chain.2 later
        exact ⟨lit, List.mem_cons_of_mem first member, holds⟩

/-- The normal form of a clause is made of its literals, and holds in the same
assignments if the literal known to be true is so. Nothing is left of a clause that
holds in any case. -/
theorem normalize_spec (top : Option Lit) (signed : ∀ lit ∈ lits, lit.neg = .ok lit.opposite) :
    ∃ result, normalize top lits = .ok result ∧
      (∀ clause ∈ result, ∀ lit ∈ clause, lit ∈ lits) ∧
        ∀ truth, (∀ lit ∈ top, lit.holds truth) →
          (Holds truth lits ↔ ∀ clause ∈ result, Holds truth clause) := by
  unfold normalize
  rw [withoutFalse_eq signed]
  set kept := lits.filter fun lit => top != some lit.opposite with keptIs
  simp only [bind, Except.bind, pure, Except.pure]
  have holdsKept : ∀ truth, (∀ lit ∈ top, lit.holds truth) → (Holds truth lits ↔ Holds truth kept) := by
    intro truth topHolds
    constructor
    · rintro ⟨lit, member, holds⟩
      refine ⟨lit, List.mem_filter.mpr ⟨member, ?_⟩, holds⟩
      rw [bne_iff_ne]
      intro isTop
      have opposed := topHolds lit.opposite isTop
      rw [Lit.holds_opposite, holds] at opposed
      cases opposed
    · rintro ⟨lit, member, holds⟩
      exact ⟨lit, (List.mem_filter.mp member).1, holds⟩
  split
  · rename_i hasTop
    refine ⟨none, rfl, nofun, fun truth topHolds => ?_⟩
    obtain ⟨lit, isTop, member⟩ := (Option.any_eq_true _ _).mp hasTop
    have holds : Holds truth kept := ⟨lit, List.contains_iff_mem.mp member, topHolds lit isTop⟩
    exact iff_of_true ((holdsKept truth topHolds).mpr holds) nofun
  · obtain ⟨isChain, members⟩ := eraseReps_spec (kept.mergeSort inOrder)
    set clause := (kept.mergeSort inOrder).eraseReps
    have sameMembers : ∀ lit, lit ∈ clause ↔ lit ∈ kept := fun lit =>
      (members lit).trans (List.mem_mergeSort)
    have holdsClause : ∀ truth, Holds truth kept ↔ Holds truth clause := by
      intro truth
      simp only [Holds, sameMembers]
    split
    · rename_i repeated
      refine ⟨none, rfl, nofun, fun truth topHolds => ?_⟩
      rw [holdsKept truth topHolds, holdsClause]
      exact iff_of_true (holds_of_repeatsVariable isChain repeated) nofun
    · refine ⟨some clause, rfl, ?_, fun truth topHolds => ?_⟩
      · rintro _ ⟨⟩ lit member
        exact (List.mem_filter.mp ((sameMembers lit).mp member)).1
      · rw [holdsKept truth topHolds, holdsClause]
        simp

/-- What is left of a clause that has a normal form. -/
theorem normalize_means {result : Option Clause} (normal : normalize top lits = .ok result) :
    (∀ clause ∈ result, ∀ lit ∈ clause, lit ∈ lits) ∧
      ∀ truth, (∀ lit ∈ top, lit.holds truth) →
        (Holds truth lits ↔ ∀ clause ∈ result, Holds truth clause) := by
  obtain ⟨_, same, spec⟩ := normalize_spec top (signed_of_normalize normal)
  cases normal.symm.trans same
  exact spec

section Sorted

theorem eraseRepsBy_loop_sublist (lit : Lit) (rest kept : Clause) :
    List.Sublist (List.eraseRepsBy.loop (· == ·) lit rest kept) (kept.reverse ++ lit :: rest) := by
  induction rest generalizing lit kept with
  | nil =>
    rw [List.eraseRepsBy.loop, List.reverse_cons]
  | cons next rest inductionHypothesis =>
    rw [List.eraseRepsBy.loop]
    cases lit == next with
    | true =>
      have skips : List.Sublist (lit :: rest) (lit :: next :: rest) :=
        List.cons_sublist_cons.mpr (List.sublist_cons_self next rest)
      exact (inductionHypothesis lit kept).trans (List.Sublist.append_left skips kept.reverse)
    | false =>
      have later := inductionHypothesis next (lit :: kept)
      rwa [List.reverse_cons, List.append_assoc] at later

theorem eraseReps_sublist (lits : Clause) : List.Sublist lits.eraseReps lits := by
  cases lits with
  | nil => exact List.Sublist.slnil
  | cons first rest => exact eraseRepsBy_loop_sublist first rest []

theorem mergeSort_inOrder_sorted (lits : Clause) :
    (lits.mergeSort inOrder).Pairwise fun left right => left.var ≤ right.var := by
  have sorted : (lits.mergeSort inOrder).Pairwise fun left right => inOrder left right := by
    refine List.pairwise_mergeSort ?_ ?_ lits
    · intro first second third
      simp only [inOrder, Bool.or_eq_true, decide_eq_true_eq, Bool.and_eq_true, beq_iff_eq]
      grind
    · intro left right
      simp only [inOrder, Bool.or_eq_true, decide_eq_true_eq, Bool.and_eq_true, beq_iff_eq]
      grind
  refine sorted.imp fun {left right} ordered => ?_
  simp only [inOrder, Bool.or_eq_true, decide_eq_true_eq, Bool.and_eq_true, beq_iff_eq] at ordered
  omega

theorem pairwise_var_lt (sorted : clause.Pairwise fun left right => left.var ≤ right.var)
    (distinct : repeatsVariable clause = false) :
    clause.Pairwise fun left right => left.var < right.var := by
  induction clause with
  | nil => exact List.Pairwise.nil
  | cons first rest inductionHypothesis =>
    cases rest with
    | nil => exact List.pairwise_singleton _ first
    | cons second rest =>
      rw [List.pairwise_cons] at sorted
      simp only [repeatsVariable, Bool.or_eq_false_iff, beq_eq_false_iff_ne] at distinct
      have increasing := inductionHypothesis sorted.2 distinct.2
      have below : first.var < second.var :=
        lt_of_le_of_ne (sorted.1 second List.mem_cons_self) distinct.1
      refine List.pairwise_cons.mpr ⟨List.forall_mem_cons.mpr ⟨below, fun lit member => ?_⟩, increasing⟩
      exact below.trans (List.rel_of_pairwise_cons increasing member)

/-- What is left of a clause goes up in its variables, and the literal known to be true
does not occur in it, nor its opposite. -/
theorem normalize_sorted (normal : normalize top lits = .ok (some clause)) :
    (clause.Pairwise fun left right => left.var < right.var) ∧
      ∀ known, top = some known → ∀ lit ∈ clause, lit.var ≠ known.var := by
  have signed := signed_of_normalize normal
  unfold normalize at normal
  rw [withoutFalse_eq signed] at normal
  set kept := lits.filter fun lit => top != some lit.opposite
  simp only [bind, Except.bind, pure, Except.pure] at normal
  split at normal
  · cases normal
  · rename_i withoutTop
    split at normal
    · cases normal
    · rename_i distinct
      obtain rfl := Option.some.inj (Except.ok.inj normal)
      refine ⟨pairwise_var_lt ((mergeSort_inOrder_sorted kept).sublist (eraseReps_sublist _)) ?_, ?_⟩
      · exact Bool.eq_false_iff.mpr distinct
      · rintro known rfl lit member sameVar
        rw [(eraseReps_spec _).2, List.mem_mergeSort] at member
        rcases eq_or_ne known lit with rfl | differ
        · exact withoutTop ((Option.any_eq_true _ _).mpr ⟨known, rfl, List.contains_iff_mem.mpr member⟩)
        · have isOpposite := Lit.eq_opposite_of_var_eq sameVar differ.symm
          have passes := (List.mem_filter.mp member).2
          rw [bne_iff_ne] at passes
          exact passes (congrArg some isOpposite)

end Sorted

end Clause

end Clausal
