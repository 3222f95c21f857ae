import Mathlib
import Clausal.Proofs.Assertion
import Clausal.Proofs.BuildAgreement

/-!
# What is lowered depends on trees only

Two sessions, one for each of two pools, are the same if they have the same
variables and clauses, and the same literals for alike expressions.
`Pools.Repeats` relates an action to one that does the same in the other session
whenever the first one succeeds. Alike expressions are lowered and asserted with the
same clauses in the same order (`lower_repeats`, `assert_repeats`).
-/

namespace Clausal

namespace Pools

variable {α β γ δ : Type} {pools : Pools} {a b : ExprId}

/-- Two sessions differ only in the handles of the expressions that were lowered. -/
structure SameSession (pools : Pools) (left right : Session) : Prop where
  flatten : left.flatten = right.flatten
  numVars : left.numVars = right.numVars
  top : left.top = right.top
  store : left.store = right.store
  literals : ∀ {a : ExprId} {lits : Array Lit}, left.literals[a]? = some lits →
    ∃ b, pools.Alike a b ∧ right.literals[b]? = some lits
  converse : ∀ {b : ExprId} {lits : Array Lit}, right.literals[b]? = some lits →
    ∃ a, pools.Alike a b ∧ left.literals[a]? = some lits

namespace SameSession

variable {left right : Session}

theorem start (flatten : Bool) : pools.SameSession (.start flatten) (.start flatten) :=
  ⟨rfl, rfl, rfl, rfl, by simp [Session.start], by simp [Session.start]⟩

theorem mono {before after : Pools} (extension : before.Extends after)
    (same : before.SameSession left right) : after.SameSession left right := by
  refine ⟨same.flatten, same.numVars, same.top, same.store, fun found => ?_, fun found => ?_⟩
  · obtain ⟨b, alike, otherFound⟩ := same.literals found
    exact ⟨b, alike.mono extension, otherFound⟩
  · obtain ⟨a, alike, otherFound⟩ := same.converse found
    exact ⟨a, alike.mono extension, otherFound⟩

theorem literals_eq (same : pools.SameSession left right) (alike : pools.Alike a b) :
    left.literals[a]? = right.literals[b]? := by
  cases found : left.literals[a]? with
  | some lits =>
    obtain ⟨other, otherAlike, otherFound⟩ := same.literals found
    rw [← (alike.eq_iff otherAlike).mp rfl] at otherFound
    exact otherFound.symm
  | none =>
    cases otherFound : right.literals[b]? with
    | none => rfl
    | some lits =>
      obtain ⟨other, otherAlike, present⟩ := same.converse otherFound
      rw [(otherAlike.eq_iff alike).mpr rfl, found] at present
      cases present

/-- The literals of alike expressions are remembered. -/
theorem remember (same : pools.SameSession left right) (alike : pools.Alike a b) (lits : Array Lit) :
    pools.SameSession { left with literals := left.literals.insert a lits }
      { right with literals := right.literals.insert b lits } := by
  refine ⟨same.flatten, same.numVars, same.top, same.store, fun {other found} stored => ?_,
    fun {other found} stored => ?_⟩
  · rw [Std.HashMap.getElem?_insert] at stored
    split at stored
    · rename_i isKey
      cases eq_of_beq isKey
      cases stored
      exact ⟨b, alike, Std.HashMap.getElem?_insert_self⟩
    · rename_i notKey
      obtain ⟨image, otherAlike, otherFound⟩ := same.literals stored
      have differ : ¬ b = image := fun isKey => notKey (by simpa using (alike.eq_iff otherAlike).mpr isKey)
      exact ⟨image, otherAlike, by rwa [Std.HashMap.getElem?_insert, if_neg (by simpa using differ)]⟩
  · rw [Std.HashMap.getElem?_insert] at stored
    split at stored
    · rename_i isKey
      cases eq_of_beq isKey
      cases stored
      exact ⟨a, alike, Std.HashMap.getElem?_insert_self⟩
    · rename_i notKey
      obtain ⟨source, otherAlike, otherFound⟩ := same.converse stored
      have differ : ¬ a = source := fun isKey => notKey (by simpa using (alike.eq_iff otherAlike).mp isKey)
      exact ⟨source, otherAlike, by rwa [Std.HashMap.getElem?_insert, if_neg (by simpa using differ)]⟩

end SameSession

/-- Where an action succeeds in one of two sessions that are the same, the other one
succeeds in the other session, with a related result, and the sessions stay the same. -/
def Repeats (pools : Pools) (action : Lower α) (other : Lower β) (related : α → β → Prop) : Prop :=
  ∀ ⦃left right : Session⦄, pools.SameSession left right → ∀ ⦃r : α⦄ ⦃after : Session⦄,
    action left = .ok r after → ∃ s last, other right = .ok s last ∧ related r s ∧
      pools.SameSession after last

namespace Repeats

variable {action : Lower α} {other : Lower β} {related : α → β → Prop}

theorem pure {r : α} {s : β} (holds : related r s) :
    pools.Repeats (Pure.pure r) (Pure.pure s) related := by
  rintro left right same _ _ ⟨⟩
  exact ⟨s, right, rfl, holds, same⟩

/-- An action that fails is repeated by any other. -/
theorem throw {failure : Failure LowerError} : pools.Repeats (MonadExcept.throw failure) other related := by
  rintro left right _ _ _ ⟨⟩

theorem ofExcept (source : Except Fault α) :
    pools.Repeats (Stateful.ofExcept source) (Stateful.ofExcept source) (· = ·) := by
  intro left right same r after ended
  obtain ⟨isOk, rfl⟩ := Stateful.ofExcept_eq_ok.mp ended
  exact ⟨r, right, Stateful.ofExcept_eq_ok.mpr ⟨isOk, rfl⟩, rfl, same⟩

theorem bind {next : α → Lower γ} {otherNext : β → Lower δ} {last : γ → δ → Prop}
    (first : pools.Repeats action other related)
    (second : ∀ r s, related r s → pools.Repeats (next r) (otherNext s) last) :
    pools.Repeats (action >>= next) (other >>= otherNext) last := by
  intro left right same r after ended
  obtain ⟨middle, _, isMiddle, ended⟩ := Stateful.bind_eq_ok.mp ended
  obtain ⟨otherMiddle, _, isOtherMiddle, holds, between⟩ := first same isMiddle
  obtain ⟨s, last, otherEnded, lastHolds, lastSame⟩ := second middle otherMiddle holds between ended
  exact ⟨s, last, Stateful.bind_eq_ok.mpr ⟨_, _, isOtherMiddle, otherEnded⟩, lastHolds, lastSame⟩

theorem get {next : Session → Lower γ} {otherNext : Session → Lower δ} {last : γ → δ → Prop}
    (rest : ∀ left right, pools.SameSession left right →
      pools.Repeats (next left) (otherNext right) last) :
    pools.Repeats (MonadState.get >>= next) (MonadState.get >>= otherNext) last :=
  fun left right same _ _ ended => rest left right same same ended

theorem changed {change otherChange : Session → Session}
    (keeps : ∀ left right, pools.SameSession left right →
      pools.SameSession (change left) (otherChange right)) :
    pools.Repeats (modify change) (modify otherChange) (· = ·) := by
  rintro left right same _ _ ⟨⟩
  exact ⟨_, _, rfl, rfl, keeps left right same⟩

/-- Related items have related results. -/
theorem mapM {items : List γ} {others : List δ} {matching : γ → δ → Prop} {step : γ → Lower α}
    {otherStep : δ → Lower β} (each : List.Forall₂ matching items others)
    (steps : ∀ item ∈ items, ∀ other, matching item other →
      pools.Repeats (step item) (otherStep other) related) :
    pools.Repeats (items.mapM step) (others.mapM otherStep) (List.Forall₂ related) := by
  induction each with
  | nil => exact pure .nil
  | cons matched _ inductionHypothesis =>
    rw [List.mapM_cons, List.mapM_cons]
    refine (steps _ List.mem_cons_self _ matched).bind fun r s holds => ?_
    refine (inductionHypothesis fun item member => steps item (List.mem_cons_of_mem _ member)).bind ?_
    exact fun rs ss rest => pure (.cons holds rest)

theorem forM {items : List γ} {others : List δ} {matching : γ → δ → Prop} {step : γ → Lower PUnit}
    {otherStep : δ → Lower PUnit} (each : List.Forall₂ matching items others)
    (steps : ∀ item ∈ items, ∀ other, matching item other →
      pools.Repeats (step item) (otherStep other) (· = ·)) :
    pools.Repeats (items.forM step) (others.forM otherStep) (· = ·) := by
  induction each with
  | nil => exact pure rfl
  | cons matched _ inductionHypothesis =>
    refine (steps _ List.mem_cons_self _ matched).bind fun _ _ _ => ?_
    exact inductionHypothesis fun item member => steps item (List.mem_cons_of_mem _ member)

end Repeats

end Pools

namespace Lower

variable {α β : Type}

attribute [local irreducible] Lit.ofVar

/-- An action that names no expression repeats itself. -/
class Uniform (action : Lower α) : Prop where
  repeats : ∀ pools : Pools, pools.Repeats action action (· = ·)

namespace Uniform

instance pure (result : α) : Uniform (Pure.pure result) :=
  ⟨fun _ => .pure rfl⟩

instance ofExcept (source : Except Fault α) : Uniform (Stateful.ofExcept source) :=
  ⟨fun _ => .ofExcept source⟩

instance bind (action : Lower α) (next : α → Lower β) [first : Uniform action]
    [second : ∀ result, Uniform (next result)] : Uniform (action >>= next) := by
  refine ⟨fun pools => (first.repeats pools).bind ?_⟩
  rintro result _ rfl
  exact (second result).repeats pools

instance mapM (items : List α) (step : α → Lower β) [each : ∀ item, Uniform (step item)] :
    Uniform (items.mapM step) := by
  induction items with
  | nil => exact pure _
  | cons item items inductionHypothesis =>
    rw [List.mapM_cons]
    infer_instance

instance forM (items : List α) (step : α → Lower PUnit) [each : ∀ item, Uniform (step item)] :
    Uniform (items.forM step) := by
  induction items with
  | nil => exact pure _
  | cons item items inductionHypothesis => exact bind (step item) fun _ => items.forM step

/-- An action that does the same to the variables and clauses of all sessions. -/
theorem changed {change : Session → Session}
    (keeps : ∀ {pools : Pools} {left right : Session}, pools.SameSession left right →
      pools.SameSession (change left) (change right)) : Uniform (modify change) :=
  ⟨fun _ => .changed fun _ _ => keeps⟩

end Uniform

section Gates

instance uniform_neg (lit : Lit) : Uniform (neg lit) :=
  .ofExcept _

instance uniform_keep (clause : Clause) : Uniform (keep clause) :=
  .changed fun same =>
    ⟨same.flatten, same.numVars, same.top, by rw [same.store], same.literals, same.converse⟩

instance uniform_fresh : Uniform fresh := by
  refine ⟨fun pools => .get fun left right same => ?_⟩
  have counted : Uniform (modify fun session => { session with numVars := right.numVars + 1 }) :=
    .changed fun same => ⟨same.flatten, rfl, same.top, same.store, same.literals, same.converse⟩
  rw [same.numVars]
  exact (Uniform.bind _ _).repeats pools

instance uniform_addClause (lits : Clause) : Uniform (addClause lits) := by
  refine ⟨fun pools => .get fun left right same => ?_⟩
  rw [same.top]
  refine (Pools.Repeats.ofExcept _).bind ?_
  rintro normal _ rfl
  cases normal with
  | none => exact .pure rfl
  | some clause => exact (uniform_keep clause).repeats pools

instance uniform_top : Uniform top := by
  refine ⟨fun pools => .get fun left right same => ?_⟩
  rw [same.top]
  cases right.top with
  | some lit => exact .pure rfl
  | none =>
    have named : ∀ lit, Uniform (modify fun session => { session with top := some lit }) := fun lit =>
      .changed fun same => ⟨same.flatten, same.numVars, rfl, same.store, same.literals, same.converse⟩
    exact (Uniform.bind _ _).repeats pools

instance uniform_andGate (inputs : List Lit) : Uniform (andGate inputs) := by
  unfold andGate
  split <;> infer_instance

instance uniform_orGate (inputs : List Lit) : Uniform (orGate inputs) := by
  unfold orGate
  split <;> infer_instance

instance uniform_xorGate (a b : Lit) : Uniform (xorGate a b) := by
  unfold xorGate
  infer_instance

instance uniform_agreements (xs ys : Array Lit) : Uniform (agreements xs ys) := by
  unfold agreements agreement
  infer_instance

instance uniform_constantBits (ty : Ty) (value : Value) : Uniform (constantBits ty value) := by
  unfold constantBits
  infer_instance

end Gates

theorem repeats_self {pools : Pools} (action : Lower α) [uniform : Uniform action] :
    pools.Repeats action action (· = ·) :=
  uniform.repeats pools

end Lower

namespace Pools

open Lower

variable {pools : Pools} {a b : ExprId} {op : Op} {operands others : List (ExprId × Array Lit)}

attribute [local irreducible] Lit.ofVar

section Operators

theorem variableBits_repeats (ty : Ty) :
    pools.Repeats (variableBits a ty) (variableBits b ty) (· = ·) := by
  refine ((Uniform.mapM (List.range ty.bitSize) fun _ => fresh).repeats pools).bind ?_
  rintro lits _ rfl
  refine (Repeats.changed fun left right same => ?_).bind fun _ _ _ => .pure rfl
  exact ⟨same.flatten, same.numVars, same.top, same.store, same.literals, same.converse⟩

theorem sole_repeats (lits : Array Lit) :
    pools.Repeats (sole pools.left a lits) (sole pools.right b lits) (· = ·) := by
  unfold sole
  split
  · exact .pure rfl
  · rename_i notSingle
    intro left right same r after ended
    obtain ⟨_, _, -, ended⟩ := Stateful.bind_eq_ok.mp ended
    cases ended

/-- Alike operands have the same literals. -/
abbrev Lowered (pools : Pools) (operand other : ExprId × Array Lit) : Prop :=
  pools.Alike operand.1 other.1 ∧ operand.2 = other.2

variable (each : List.Forall₂ pools.Lowered operands others)
include each

theorem soles_repeats :
    pools.Repeats (soles pools.left operands) (soles pools.right others) (· = ·) := by
  have same := Repeats.mapM each fun operand _ other lowered =>
    (lowered.2 ▸ sole_repeats operand.2 :
      pools.Repeats (sole pools.left operand.1 operand.2) (sole pools.right other.1 other.2) (· = ·))
  rwa [List.forall₂_eq_eq_eq] at same

theorem foldl_lowered_eq (start : Array Lit) :
    operands.foldl (fun lits operand => lits ++ operand.2) start =
      others.foldl (fun lits operand => lits ++ operand.2) start := by
  induction each generalizing start with
  | nil => rfl
  | cons first _ inductionHypothesis =>
    rw [List.foldl_cons, List.foldl_cons, first.2]
    exact inductionHypothesis _

/-- An operator on alike operands has the same literals. -/
theorem combine_repeats :
    pools.Repeats (combine pools.left op operands) (combine pools.right op others) (· = ·) := by
  cases op with
  | and | or | clause =>
    refine (soles_repeats each).bind ?_
    rintro inputs _ rfl
    exact repeats_self _
  | bits | tuple => exact .pure (foldl_lowered_eq each #[])
  | not =>
    obtain _ | @⟨⟨a, lits⟩, ⟨b, _⟩, _, _, ⟨-, rfl⟩, -⟩ := each
    · exact .throw
    · refine (sole_repeats lits).bind ?_
      rintro lit _ rfl
      exact repeats_self _
  | bit index =>
    obtain _ | @⟨⟨a, lits⟩, ⟨b, _⟩, _, _, ⟨-, rfl⟩, -⟩ := each
    · exact .throw
    · unfold combine
      exact repeats_self _
  | field index =>
    obtain _ | @⟨⟨a, lits⟩, ⟨b, _⟩, _, _, ⟨alike, rfl⟩, -⟩ := each
    · exact .throw
    · have sameTy : pools.left.ty a = pools.right.ty b := alike.ty_eq
      unfold combine
      dsimp only
      rw [sameTy]
      exact repeats_self _
  | xor =>
    obtain _ | @⟨⟨a, xs⟩, ⟨c, _⟩, _, _, ⟨-, rfl⟩, _ | @⟨⟨b, ys⟩, ⟨d, _⟩, _, _, ⟨-, rfl⟩, -⟩⟩ := each
    · exact .throw
    · exact .throw
    · refine (sole_repeats xs).bind ?_
      rintro x _ rfl
      refine (sole_repeats ys).bind ?_
      rintro y _ rfl
      exact repeats_self _
  | eq =>
    obtain _ | @⟨⟨a, xs⟩, ⟨c, _⟩, _, _, ⟨-, rfl⟩, _ | @⟨⟨b, ys⟩, ⟨d, _⟩, _, _, ⟨-, rfl⟩, -⟩⟩ := each
    · exact .throw
    · exact .throw
    · unfold combine
      exact repeats_self _
  | implies | ite | add | mul => exact .throw

end Operators

section Lowering

/-- Alike expressions are lowered to the same literals. -/
theorem lower_repeats (alike : pools.Alike a b) :
    pools.Repeats (lower pools.left a) (lower pools.right b) (· = ·) := by
  induction index : a.index using Nat.strong_induction_on generalizing a b with
  | h size inductionHypothesis =>
    have node : pools.Repeats (lowerNode pools.left a) (lowerNode pools.right b) (· = ·) := by
      unfold lowerNode
      cases alike.node with
      | var left right =>
        rw [left, right]
        exact variableBits_repeats _
      | const left right =>
        rw [left, right]
        exact repeats_self _
      | apply left right each =>
        rw [left, right]
        dsimp only
        split
        · refine (Repeats.mapM each fun operand member other operandAlike => ?_).bind
            fun lowered otherLowered => combine_repeats
          have smaller := Pool.index_lt_of_node? left member
          refine (inductionHypothesis operand.index (index ▸ smaller) operandAlike rfl).bind ?_
          exact fun lits _ same => .pure ⟨operandAlike, same⟩
        · exact .throw
    rw [lower_eq, lower_eq]
    refine .get fun left right same => ?_
    rw [same.literals_eq alike]
    cases right.literals[b]? with
    | some lits => exact .pure rfl
    | none =>
      refine node.bind ?_
      rintro lits _ rfl
      refine (Repeats.changed fun left right same => same.remember alike lits).bind fun _ _ _ => ?_
      exact .pure rfl

theorem literal_repeats (alike : pools.Alike a b) :
    pools.Repeats (literal pools.left a) (literal pools.right b) (· = ·) := by
  refine (lower_repeats alike).bind ?_
  rintro lits _ rfl
  exact sole_repeats lits

theorem assertLiteral_repeats (alike : pools.Alike a b) :
    pools.Repeats (assertLiteral pools.left a) (assertLiteral pools.right b) (· = ·) := by
  refine (literal_repeats alike).bind ?_
  rintro lit _ rfl
  exact repeats_self _

/-- Alike expressions are asserted by the same clauses. -/
theorem assert_repeats (alike : pools.Alike a b) :
    pools.Repeats (assert pools.left a) (assert pools.right b) (· = ·) := by
  induction index : a.index using Nat.strong_induction_on generalizing a b with
  | h size inductionHypothesis =>
    have node : pools.Repeats (assertNode pools.left a) (assertNode pools.right b) (· = ·) := by
      have whole := assertLiteral_repeats alike
      unfold assertNode
      cases alike.node with
      | var left right | const left right =>
        rw [left, right]
        exact whole
      | @apply ty op xs ys left right each =>
        have clause : pools.Repeats
            (do let lits ← xs.mapM (literal pools.left); addClause lits)
            (do let lits ← ys.mapM (literal pools.right); addClause lits) (· = ·) := by
          refine (Repeats.mapM each fun operand _ other => literal_repeats).bind fun lits others same => ?_
          rw [List.forall₂_eq_eq_eq] at same
          subst same
          exact repeats_self _
        rw [left, right]
        cases op with
        | or | clause => exact clause
        | and =>
          refine .get fun before after same => ?_
          rw [same.flatten]
          split
          · refine Repeats.forM each fun operand member other operandAlike => ?_
            have smaller := Pool.index_lt_of_node? left member
            exact inductionHypothesis operand.index (index ▸ smaller) operandAlike rfl
          · exact whole
        | _ => exact whole
    rw [assert_eq, assert_eq, alike.ty_eq]
    refine (Repeats.ofExcept _).bind ?_
    rintro ty _ rfl
    split
    · exact node
    · exact .throw

end Lowering

end Pools

end Clausal
