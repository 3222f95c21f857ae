import Mathlib
import Clausal.Proofs.Fixpoints

/-!
# Loops at a node and descents below it

Decomposition and the pushing of negations go from the top down: at a node, a rule is
repeated while it applies, and the walk goes on with the operands of what is there
then, which need not occur in the expression. `Pass.descend` is this descent with a
number of turns for the loop at every node and a number of levels. A pass takes the loop
in one step, and by `Pass.descend_eq_ok` this makes no difference if there are turns
enough: two suffice to decompose at a node, and the number of a node bounds how often
the negation there is pushed on. The rank of the expression bounds the levels, so no bound
is ever met.
-/

namespace Clausal

open Stateful

namespace Build

/-- Repeat a rule while it applies, with at most `rounds` turns. The last turn finds that
it does not apply. -/
def repeating (rule : ExprId → Build (Option ExprId)) : Nat → ExprId → Build ExprId
  | 0, _ => Stateful.breach .outOfFuel
  | rounds + 1, e => do
    match ← rule e with
    | some result => repeating rule rounds result
    | none => return e

section Repetition

variable {rule : ExprId → Build (Option ExprId)} {pool after : Pool} {e result : ExprId} {rounds : Nat}

theorem repeating_none (ended : rule e pool = .ok none after) :
    repeating rule (rounds + 1) e pool = .ok e after :=
  bind_eq_ok.mpr ⟨none, after, ended, rfl⟩

theorem repeating_some (ended : rule e pool = .ok (some result) after) :
    repeating rule (rounds + 1) e pool = repeating rule rounds result after := by
  simp only [repeating, bind, EStateM.bind, ended]

/-- A rule that does not apply to its results is repeated once at most. -/
theorem repeating_of_settled (enough : 2 ≤ rounds)
    (ended : (rule e >>= fun proposal => pure (proposal.getD e)) pool = .ok result after)
    (settled : ∀ {next}, rule e pool = .ok (some next) after → rule next after = .ok none after) :
    repeating rule rounds e pool = .ok result after := by
  obtain ⟨rounds, rfl⟩ := Nat.exists_eq_add_of_le' enough
  obtain ⟨proposal, _, tried, ⟨⟩⟩ := bind_eq_ok.mp ended
  cases proposal with
  | none => exact repeating_none tried
  | some next => exact (repeating_some tried).trans (repeating_none (settled tried))

end Repetition

/-- Whatever an action returns has `top` as its operator, or is a leaf if `top` is none. -/
def Returns (action : Build ExprId) (top : Option Op) : Prop :=
  ∀ ⦃pool after : Pool⦄ ⦃e : ExprId⦄, action pool = .ok e after → after.op? e = top

theorem returns_apply (op : Op) (operands : List ExprId) : Returns (apply op operands) (some op) := by
  intro pool after e ended
  obtain ⟨-, ty, stored⟩ := (apply_makes op operands).of_ok ended
  exact Pool.op?_of_apply stored

theorem returns_truth (value : Bool) : Returns (truth value) none := by
  intro pool after e ended
  obtain ⟨-, stored⟩ := (Yields.makes (truth_yields value)).of_ok ended
  simp [Pool.op?, stored, Node.op?]

theorem returns_bind {α : Type} {first : Build α} {next : α → Build ExprId} {top : Option Op}
    (each : ∀ middle, Returns (next middle) top) : Returns (first >>= next) top := by
  intro pool after e ended
  obtain ⟨middle, between, -, ended⟩ := bind_eq_ok.mp ended
  exact each middle ended

theorem returns_draft (op : Op) (drafts : List Draft) :
    Returns (Draft.apply op drafts).build (some op) := by
  rw [Draft.build]
  exact returns_bind fun operands => returns_apply op operands

/-- The operator of whatever an action returns satisfies `holds`, if it returns something. -/
def Proposes (action : Build (Option ExprId)) (holds : Option Op → Prop) : Prop :=
  ∀ ⦃pool after : Pool⦄ ⦃e : ExprId⦄, action pool = .ok (some e) after → holds (after.op? e)

theorem proposes_none {holds : Option Op → Prop} : Proposes (pure none) holds := by
  intro pool after e ended
  cases ended

theorem Returns.proposes {action : Build ExprId} {top : Option Op} {holds : Option Op → Prop}
    (returns : Returns action top) (satisfied : holds top) :
    Proposes (do return some (← action)) holds := by
  intro pool after e ended
  obtain ⟨result, between, made, isSome⟩ := bind_eq_ok.mp ended
  cases isSome
  rwa [returns made]

theorem proposes_bind {α : Type} {first : Build α} {next : α → Build (Option ExprId)}
    {holds : Option Op → Prop} (each : ∀ middle, Proposes (next middle) holds) :
    Proposes (first >>= next) holds := by
  intro pool after e ended
  obtain ⟨middle, between, -, ended⟩ := bind_eq_ok.mp ended
  exact each middle ended

end Build

namespace Rules

variable {pool : Pool} {op : Op} {operands : List ExprId}

/-- There is no operator that can be expressed by simpler ones. -/
def Elementary (top : Option Op) : Prop :=
  ∀ op ∈ top, op.decomposes = false

theorem elementary_some (kept : op.decomposes = false) : Elementary (some op) := by
  simpa [Elementary] using kept

theorem decomposeChoice_elementary (ty : Ty) (c t e : ExprId) :
    Build.Proposes (decomposeChoice ty c t e) Elementary := by
  cases ty with
  | bool => exact (Build.returns_draft .or _).proposes (elementary_some rfl)
  | uint width =>
    have returns : Build.Returns (wordChoice width c t e) (some .bits) :=
      Build.returns_bind fun bits => Build.returns_apply .bits bits
    exact returns.proposes (elementary_some rfl)
  | tuple fields => exact Build.proposes_none

theorem decomposeEquality_elementary (ty : Ty) (a b : ExprId) :
    Build.Proposes (decomposeEquality ty a b) Elementary := by
  have partwise : ∀ select count, Build.Proposes
      (do return some (← partwiseEquality select count a b)) Elementary := by
    intro select count
    have returns : Build.Returns (partwiseEquality select count a b) (some .and) :=
      Build.returns_bind fun equalities => Build.returns_apply .and equalities
    exact returns.proposes (elementary_some rfl)
  match ty with
  | .bool => exact Build.proposes_none
  | .uint width => exact partwise .bit width
  | .tuple [] => exact (Build.returns_truth true).proposes (by simp [Elementary])
  | .tuple (field :: fields) => exact partwise .field (field :: fields).length

theorem returns_add (width : Nat) (a b : ExprId) :
    Build.Returns (Circuit.add width a b) (some .bits) :=
  Build.returns_bind fun _ => Build.returns_bind fun _ => Build.returns_bind fun sum =>
    Build.returns_apply .bits sum

theorem returns_mul (width : Nat) (a b : ExprId) :
    Build.Returns (Circuit.mul width a b) (some .bits) :=
  Build.returns_bind fun _ => Build.returns_bind fun _ => Build.returns_bind fun _ =>
    Build.returns_bind fun product => Build.returns_apply .bits product

/-- What decomposition returns cannot be decomposed at the top. -/
theorem decompose_elementary (op : Op) (operands : List ExprId) :
    Build.Proposes (decompose op operands) Elementary := by
  unfold decompose
  split
  · exact (Build.returns_draft .or _).proposes (elementary_some rfl)
  · exact Build.proposes_bind fun ty => decomposeChoice_elementary ty _ _ _
  · exact Build.proposes_bind fun ty => decomposeEquality_elementary ty _ _
  · exact (returns_add _ _ _).proposes (elementary_some rfl)
  · exact (returns_mul _ _ _).proposes (elementary_some rfl)
  all_goals
    intro pool after e ended
    cases ended

/-- The opposite of an application of another operator than `not` is proposed as an
application of such an operator. -/
theorem exists_dual_of_negation {draft : Draft} (notNot : op ≠ .not)
    (proposed : negation pool op operands = .ok (some draft)) :
    ∃ dual parts, dual ≠ .not ∧ draft = .apply dual parts := by
  unfold negation at proposed
  split at proposed
  case h_1 => exact absurd rfl notNot
  case h_7 | h_8 =>
    split at proposed <;> cases proposed
    exact ⟨_, _, by simp, rfl⟩
  all_goals
    cases proposed
    try exact ⟨_, _, by simp, rfl⟩

theorem negate_ne_not (notNot : op ≠ .not) :
    Build.Proposes (negate op operands) (· ≠ some .not) := by
  intro pool after top ended
  obtain ⟨_, _, ⟨⟩, ended⟩ := bind_eq_ok.mp ended
  obtain ⟨proposal, between, proposed, built⟩ := bind_eq_ok.mp ended
  obtain ⟨proposed, rfl⟩ := ofExcept_eq_ok.mp proposed
  cases proposal with
  | none => cases built
  | some draft =>
    obtain ⟨dual, parts, isOther, rfl⟩ := exists_dual_of_negation notNot proposed
    have proposes : Build.Proposes (do return some (← (Draft.apply dual parts).build)) (· ≠ some .not) :=
      (Build.returns_draft dual parts).proposes (by simpa using isOther)
    exact proposes built

end Rules

namespace Pass

variable {pool after : Pool} {e operand top : ExprId} {rounds : Nat}

/-- One turn of the loop that decomposes at a node. -/
def decomposeOnce (e : ExprId) : Build (Option ExprId) := do
  match (← get).node? e with
  | some ⟨_, .apply op operands⟩ =>
    if op.decomposes then Rules.decompose op operands else return none
  | _ => return none

/-- What takes the place of the negation of an expression, if something does. -/
def opposite? (pool : Pool) (inner : ExprId) : Build (Option ExprId) := do
  match pool.truth? inner with
  | some truth => return some (← Build.truth !truth)
  | none =>
    match pool.node? inner with
    | some ⟨_, .apply op operands⟩ =>
      if op.absorbsNegation then Rules.negate op operands else return none
    | _ => return none

/-- One turn of the loop that pushes the negation at a node on. -/
def negateOnce (e : ExprId) : Build (Option ExprId) := do
  let pool ← get
  match pool.negated? e with
  | none => return none
  | some inner => opposite? pool inner

section Decomposition

theorem decomposeOnce_elementary (e : ExprId) : Build.Proposes (decomposeOnce e) Rules.Elementary := by
  refine Build.proposes_bind fun pool => ?_
  split
  · split
    · exact Rules.decompose_elementary _ _
    · exact Build.proposes_none
  · exact Build.proposes_none

theorem decomposeOnce_of_elementary (elementary : Rules.Elementary (pool.op? e)) :
    decomposeOnce e pool = .ok none pool := by
  unfold decomposeOnce
  simp only [bind, EStateM.bind, get, getThe, MonadStateOf.get, EStateM.get]
  rcases stored : pool.node? e with _ | ⟨ty, _ | _ | ⟨op, operands⟩⟩
  · rfl
  · rfl
  · rfl
  · dsimp only
    rw [elementary op (Pool.op?_of_apply stored)]
    rfl

theorem step_decompose_eq :
    step .decompose e = decomposeOnce e >>= fun proposal => pure (proposal.getD e) := by
  funext pool
  unfold step atTop decomposeOnce
  simp only [bind, EStateM.bind, get, getThe, MonadStateOf.get, EStateM.get]
  rcases pool.node? e with _ | ⟨ty, _ | _ | ⟨op, operands⟩⟩
  · rfl
  · rfl
  · rfl
  · dsimp only
    split <;> rfl

/-- Two turns suffice to decompose at a node. -/
theorem step_decompose_approximates (enough : 2 ≤ rounds) (e : ExprId) :
    Approximates (step .decompose e) (Build.repeating decomposeOnce rounds e) := by
  intro pool after top ended
  rw [step_decompose_eq] at ended
  exact Build.repeating_of_settled enough ended fun tried =>
    decomposeOnce_of_elementary (decomposeOnce_elementary e tried)

end Decomposition

section Negation

variable {inner : ExprId}

theorem negateOnce_of_negated (negated : pool.negated? e = some inner) :
    negateOnce e pool = opposite? pool inner pool := by
  simp only [negateOnce, bind, EStateM.bind, get, getThe, MonadStateOf.get, EStateM.get, negated]

theorem negateOnce_of_not_negated (notNegated : pool.negated? e = none) :
    negateOnce e pool = .ok none pool := by
  simp only [negateOnce, bind, EStateM.bind, get, getThe, MonadStateOf.get, EStateM.get, notNegated]
  rfl

/-- What takes the place of the negation of anything but a negation is no negation. -/
theorem opposite?_ne_not (single : pool.negated? inner = none) :
    Build.Proposes (opposite? pool inner) (· ≠ some .not) := by
  unfold opposite?
  split
  · exact (Build.returns_truth _).proposes (by simp)
  split
  · rename_i ty op operands stored
    split
    · by_cases isNot : op = .not
      · subst isNot
        cases operands with
        | nil =>
          -- A negation has an operand; without one, the rule fails.
          intro before after top ended
          cases ended
        | cons operand rest =>
          rw [Pool.negated?_eq_some_iff.mpr ⟨ty, rest, stored⟩] at single
          cases single
      · exact Rules.negate_ne_not isNot
    · exact Build.proposes_none
  · exact Build.proposes_none

/-- A turn at a pair of negations goes to their operand. -/
theorem negateOnce_of_pair (pair : (pool.negated? e).bind pool.negated? = some operand) :
    negateOnce e pool = .ok (some operand) pool := by
  obtain ⟨inner, outer, negated⟩ := Option.bind_eq_some_iff.mp pair
  obtain ⟨ty, rest, stored⟩ := Pool.negated?_eq_some_iff.mp negated
  have notConstant : pool.truth? inner = none := by simp [Pool.truth?, stored]
  rw [negateOnce_of_negated outer]
  simp only [opposite?, notConstant, stored]
  rfl

theorem absorb_of_pair (pair : (pool.negated? e).bind pool.negated? = some operand) :
    absorb e pool = absorb operand pool := by
  have strips : stripPairs pool e = stripPairs pool operand := by rw [stripPairs_eq, pair]
  simp only [absorb, bind, EStateM.bind, get, getThe, MonadStateOf.get, EStateM.get, strips]

/-- Without a pair of negations, the step takes one turn. -/
theorem absorb_of_single (single : (pool.negated? e).bind pool.negated? = none) :
    absorb e pool = (negateOnce e >>= fun proposal => pure (proposal.getD e)) pool := by
  have strips : stripPairs pool e = e := by rw [stripPairs_eq, single]
  simp only [absorb, negateOnce, bind, EStateM.bind, get, getThe, MonadStateOf.get, EStateM.get, strips]
  cases pool.negated? e with
  | none => rfl
  | some inner =>
    dsimp only [opposite?]
    cases pool.truth? inner with
    | some truth =>
      simp only [bind, EStateM.bind]
      cases Build.truth (!truth) pool <;> rfl
    | none =>
      rcases pool.node? inner with _ | ⟨ty, _ | _ | ⟨op, operands⟩⟩
      · rfl
      · rfl
      · rfl
      · dsimp only
        split <;> rfl

/-- A turn at anything but a pair of negations is the last one that applies. -/
theorem negateOnce_of_single (single : (pool.negated? e).bind pool.negated? = none)
    (ended : negateOnce e pool = .ok (some top) after) : negateOnce top after = .ok none after := by
  cases negated : pool.negated? e with
  | none =>
    rw [negateOnce_of_not_negated negated] at ended
    cases ended
  | some inner =>
    rw [negateOnce_of_negated negated] at ended
    rw [negated] at single
    refine negateOnce_of_not_negated (Option.eq_none_iff_forall_ne_some.mpr fun next isNegation => ?_)
    obtain ⟨ty, rest, stored⟩ := Pool.negated?_eq_some_iff.mp isNegation
    exact opposite?_ne_not single ended (Pool.op?_of_apply stored)

/-- The step that pushes a negation on is a loop. Each turn goes to an expression with a
smaller number, until a last one moves the negation below another operator. -/
theorem absorb_approximates (enough : e.index + 2 ≤ rounds) :
    Approximates (absorb e) (Build.repeating negateOnce rounds e) := by
  intro pool after top ended
  induction index : e.index using Nat.strong_induction_on generalizing e rounds with
  | _ size inductionHypothesis =>
  subst index
  cases pair : (pool.negated? e).bind pool.negated? with
  | some operand =>
    have below := index_lt_of_pair pair
    obtain ⟨rounds, rfl⟩ := Nat.exists_eq_succ_of_ne_zero (by omega : rounds ≠ 0)
    rw [absorb_of_pair pair] at ended
    rw [Build.repeating_some (negateOnce_of_pair pair)]
    exact inductionHypothesis operand.index below (by omega) ended rfl
  | none =>
    rw [absorb_of_single pair] at ended
    exact Build.repeating_of_settled (by omega) ended (negateOnce_of_single pair)

end Negation

end Pass

section Descent

theorem Walk.ofBuild_approximates {σ α : Type} {action other : Build α}
    (approximates : Approximates action other) :
    Approximates (ofBuild action : Walk σ α) (ofBuild other) := by
  rintro ⟨pool, memory⟩ ⟨after, _⟩ result ended
  unfold ofBuild at ended ⊢
  dsimp only at ended ⊢
  cases reached : action pool with
  | ok made last =>
    rw [reached] at ended
    cases ended
    rw [approximates reached]
  | error failure last =>
    rw [reached] at ended
    cases ended

/-- A walk from the top down approximates one that may go deeper, if its step does at
every node. -/
theorem Walk.topDown_approximates {σ : Type} {memo : Memo σ} {step other : ExprId → Walk σ ExprId}
    (each : ∀ e, Approximates (step e) (other e)) {depth larger : Nat} (le : depth ≤ larger) (e : ExprId) :
    Approximates (topDown memo step depth e) (topDown memo other larger e) := by
  induction depth generalizing larger e with
  | zero =>
    intro state last result ended
    cases ended
  | succ depth inductionHypothesis =>
    obtain ⟨larger, rfl⟩ := Nat.exists_eq_succ_of_ne_zero (Nat.ne_zero_of_lt le)
    refine (Approximates.refl _).bind fun found => ?_
    cases found with
    | some result => exact .refl _
    | none =>
      refine (each e).bind fun top => (Approximates.refl _).bind fun workspace => ?_
      have operands : Approximates ((workspace.pool.operands top).mapM (topDown memo step depth))
          ((workspace.pool.operands top).mapM (topDown memo other larger)) :=
        .mapM fun operand _ => inductionHypothesis (Nat.le_of_succ_le_succ le) operand
      exact operands.bind fun new => .refl _

namespace Pass

variable {pass : Pass} {workspace after : Workspace PassMemory} {e r : ExprId}

/-- A descent with a loop at every node, which takes at most `rounds` turns there, through
at most `depth` levels. -/
def descend (pass : Pass) (turn : ExprId → Build (Option ExprId)) (rounds : ExprId → Nat)
    (depth : Nat) (e : ExprId) : Work ExprId :=
  Walk.topDown pass.memo (fun x => Walk.ofBuild (Build.repeating turn (rounds x) x)) depth e

/-- A pass from the top down is such a walk, also where the memory has a result: the walk
finds it too. -/
theorem run_eq_topDown (descends : pass = .pushNegation ∨ pass = .decompose)
    (stored : workspace.pool.Has e) :
    run pass e workspace = Walk.topDown pass.memo (fun x => Walk.ofBuild (pass.step x))
      (workspace.pool.rank e) e workspace := by
  have asLookUp : run pass e = lookUpOr pass e fun pool =>
      Walk.topDown pass.memo (fun x => Walk.ofBuild (pass.step x)) (pool.rank e) e := by
    rcases descends with rfl | rfl <;> rfl
  obtain ⟨depth, same⟩ := Nat.exists_eq_succ_of_ne_zero (Pool.rank_pos stored).ne'
  rw [asLookUp, lookUpOr, Walk.lookUp_bind]
  cases found : pass.memo.find? workspace.memory e with
  | some result => rw [same, Walk.topDown, Walk.lookUp_bind, found]
  | none => rfl

/-- Where a pass ends well, so does the descent whose loops the steps of the pass
approximate, in the same way. -/
theorem descend_eq_ok {turn : ExprId → Build (Option ExprId)} {rounds : ExprId → Nat} {depth : Nat}
    (descends : pass = .pushNegation ∨ pass = .decompose) (stored : workspace.pool.Has e)
    (each : ∀ x, Approximates (pass.step x) (Build.repeating turn (rounds x) x))
    (deep : workspace.pool.rank e ≤ depth) (ended : run pass e workspace = .ok r after) :
    descend pass turn rounds depth e workspace = .ok r after := by
  rw [run_eq_topDown descends stored] at ended
  exact Walk.topDown_approximates (fun x => Walk.ofBuild_approximates (each x)) deep e ended

/-- Negations can be pushed down in every well-typed pool. -/
theorem exists_derives_pushNegation {pool : Pool} {e : ExprId} (typed : pool.WellTyped)
    (stored : pool.Has e) : ∃ tree, Derives .pushNegation (pool.tree e) tree := by
  induction rank : pool.rank e using Nat.strong_induction_on generalizing pool e with
  | _ size inductionHypothesis =>
  subst rank
  obtain ⟨top, after, ended, advances, tops⟩ := (absorb_yields typed stored).exists_ok
  have operandResults : ∀ tree ∈ (after.tree top).operands, ∃ result,
      Derives .pushNegation tree result := by
    intro tree member
    rw [Pool.operands_tree tops.refines.has_right] at member
    obtain ⟨operand, isOperand, rfl⟩ := List.mem_map.mp member
    have below := tops.shallow operand isOperand
    rw [advances.extension.rank_eq stored] at below
    exact inductionHypothesis _ below (advances.wellTyped typed) (Pool.has_operand isOperand) rfl
  obtain ⟨new, each⟩ := exists_forall₂ operandResults
  exact ⟨_, .of_down rfl (.of_ok typed stored ended) each⟩

/-- Pushing negations succeeds in every coherent workspace. -/
theorem pushNegation_yields (coherent : workspace.Coherent) (stored : workspace.pool.Has e) :
    Work.Yields (run .pushNegation e) workspace fun r after =>
      Result .pushNegation after.pool e r :=
  (run_tries .pushNegation coherent stored).yields fun stuck =>
    stuck.no_result (exists_derives_pushNegation coherent.typed stored)

end Pass

end Descent

namespace Workspace

variable {workspace : Workspace PassMemory} {e : ExprId}

/-- In every workspace with words of positive widths only, decomposition ends, and so it
does with any larger bounds on the descent and on the loops in it. The result has the
type and the values of the expression. Of the composite operators, only equality occurs
in it, and only between booleans. No rule decomposes an application that occurs there. -/
theorem Used.decompose_removes_composites (used : workspace.Used) (sized : workspace.pool.Sized)
    (stored : workspace.pool.Has e) :
    ∃ r after, Pass.run .decompose e workspace = .ok r after ∧ after.pool.Refines e r ∧
      (∀ depth rounds, workspace.pool.rank e ≤ depth → (∀ x, 2 ≤ rounds x) →
        Pass.descend .decompose Pass.decomposeOnce rounds depth e workspace = .ok r after) ∧
      ∀ x ty op operands, after.pool.Reaches r x →
        after.pool.node? x = some ⟨ty, .apply op operands⟩ →
          op ≠ .implies ∧ op ≠ .ite ∧ (∀ width, op ≠ .add width ∧ op ≠ .mul width) ∧
            (op = .eq → ∀ operand ∈ operands, after.pool.HasTy operand .bool) ∧
            Rules.decompose op operands after.pool = .ok none after.pool := by
  have coherent := used.coherent
  obtain ⟨r, after, ended, advances, result⟩ :=
    (Pass.run_yields .decompose ⟨coherent, sized⟩ stored).exists_ok
  refine ⟨r, after, ended, result.refines, fun depth rounds deep enough => ?_, ?_⟩
  · exact Pass.descend_eq_ok (.inr rfl) stored
      (fun x => Pass.step_decompose_approximates (enough x) x) deep ended
  · intro x ty op operands reaches found
    have allowed := result.settles reaches op (Pool.op?_of_apply found)
    rw [Pool.operands_of_node? found] at allowed
    have undecomposed := Pass.decompose_of_plain (advances.coherent coherent).typed found allowed
    obtain ⟨supported, bools⟩ := allowed
    change Lower.supports op at supported
    refine ⟨?_, ?_, fun width => ⟨?_, ?_⟩, fun isEq operand member => bools operand member isEq,
      undecomposed⟩
    all_goals
      rintro rfl
      cases supported

/-- An equality of words does not stay. -/
theorem decompose_removes_equality :
    ∃ (workspace after : Workspace PassMemory) (e x r : ExprId), workspace.Used ∧
      workspace.pool.Sized ∧ workspace.pool.HasTy x (.uint 4) ∧
      workspace.pool.node? e = some ⟨.bool, .apply .eq [x, x]⟩ ∧
      Pass.run .decompose e workspace = .ok r after ∧ r ≠ e := by
  have positive : (Ty.uint 4).Sized := Nat.succ_pos 3
  obtain ⟨first, x, firstReachable, xStored⟩ := exists_reachable_variable "x" positive
  have isWord : first.pool.HasTy x (.uint 4) := ⟨_, xStored⟩
  have applies : first.pool.Applies .eq [x, x] .bool :=
    ⟨⟨[.uint 4, .uint 4], .cons isWord (.cons isWord .nil), .eq (.uint 4)⟩, by simp⟩
  obtain ⟨workspace, e, reachable, extension, stored⟩ :=
    firstReachable.exists_built (.apply .eq [x, x]) (Build.apply_yields applies)
  replace isWord := extension.hasTy isWord
  have used := reachable.evolved.used
  have sized := reachable.sound.sized
  have isStored : workspace.pool.Has e := Pool.has_iff.mpr ⟨_, stored⟩
  obtain ⟨r, after, ended, -, -, removed⟩ := used.decompose_removes_composites sized isStored
  refine ⟨workspace, after, e, x, r, used, sized, isWord, stored, ended, ?_⟩
  rintro rfl
  have later := ((Pass.run_tries .decompose used.coherent isStored).of_ok ended).1.extension
  have isBool := (removed r _ _ _ .refl (later stored)).2.2.2.1 rfl x List.mem_cons_self
  cases (later.hasTy isWord).unique isBool

/-- In every workspace, the pushing of negations ends, and so it does with any larger
bounds on the descent and on the loops in it. The result has the type and the values of
the expression, and a negation in it has one operand, which resists the negation. The
pass returns the result for itself, from then on and if nothing is remembered. -/
theorem Used.pushNegation_settles (used : workspace.Used) (stored : workspace.pool.Has e) :
    ∃ r after, Pass.run .pushNegation e workspace = .ok r after ∧ after.pool.Refines e r ∧
      (∀ depth rounds, workspace.pool.rank e ≤ depth → (∀ x : ExprId, x.index + 2 ≤ rounds x) →
        Pass.descend .pushNegation Pass.negateOnce rounds depth e workspace = .ok r after) ∧
      (∀ x ty operands, after.pool.Reaches r x →
        after.pool.node? x = some ⟨ty, .apply .not operands⟩ →
          ∃ operand, operands = [operand] ∧ after.pool.Resists operand) ∧
      (∃ last, Pass.run .pushNegation r after = .ok r last) ∧
      ∃ last, Pass.run .pushNegation r ⟨after.pool, ∅⟩ = .ok r last := by
  have coherent := used.coherent
  obtain ⟨r, after, ended, advances, result⟩ := (Pass.pushNegation_yields coherent stored).exists_ok
  have afterCoherent := advances.coherent coherent
  have typed := afterCoherent.typed
  have resultStored := result.refines.has_right
  have self := (result.self typed).derives
  have forgotten : Coherent ⟨after.pool, ∅⟩ := ⟨typed, by simp⟩
  refine ⟨r, after, ended, result.refines, fun depth rounds deep enough => ?_, ?_,
    Pass.run_eq_ok afterCoherent resultStored resultStored self,
    Pass.run_eq_ok forgotten resultStored resultStored self⟩
  · exact Pass.descend_eq_ok (.inl rfl) stored (fun x => Pass.absorb_approximates (enough x)) deep ended
  · intro x ty operands reaches found
    have isNot := Pool.op?_of_apply found
    obtain ⟨operand, only, -⟩ := Pass.exists_negated? typed isNot
    have resists := result.settles.1 reaches .not isNot rfl operand (by simp [only])
    rw [Pool.operands_of_node? found] at only
    exact ⟨operand, only, resists⟩

/-- A negation of a conjunction does not stay. -/
theorem pushNegation_settles_conjunction :
    ∃ (workspace after : Workspace PassMemory) (e inner x r : ExprId), workspace.Used ∧
      workspace.pool.node? inner = some ⟨.bool, .apply .and [x, x]⟩ ∧
      workspace.pool.node? e = some ⟨.bool, .apply .not [inner]⟩ ∧
      Pass.run .pushNegation e workspace = .ok r after ∧ r ≠ e := by
  obtain ⟨first, x, firstReachable, xStored⟩ :=
    exists_reachable_variable "x" (show Ty.bool.Sized from trivial)
  have isBool : first.pool.HasTy x .bool := ⟨_, xStored⟩
  have applies : first.pool.Applies .and [x, x] .bool :=
    ⟨⟨[.bool, .bool], .cons isBool (.cons isBool .nil), .and (by simp) (by simp)⟩, by simp⟩
  obtain ⟨second, inner, secondReachable, -, innerStored⟩ :=
    firstReachable.exists_built (.apply .and [x, x]) (Build.apply_yields applies)
  obtain ⟨workspace, e, reachable, extension, stored⟩ :=
    secondReachable.exists_negation ⟨_, innerStored⟩
  replace innerStored := extension innerStored
  have used := reachable.evolved.used
  have isStored : workspace.pool.Has e := Pool.has_iff.mpr ⟨_, stored⟩
  obtain ⟨r, after, ended, -, -, settled, -⟩ := used.pushNegation_settles isStored
  refine ⟨workspace, after, e, inner, x, r, used, innerStored, stored, ended, ?_⟩
  rintro rfl
  have later := ((Pass.run_tries .pushNegation used.coherent isStored).of_ok ended).1.extension
  obtain ⟨operand, only, resists⟩ := settled r _ _ .refl (later stored)
  obtain rfl := List.singleton_injective only
  cases resists with
  | var found | bit found | field found | equality found => simp [later innerStored] at found

end Workspace

end Clausal
