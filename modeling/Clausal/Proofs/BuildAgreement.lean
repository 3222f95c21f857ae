import Mathlib
import Clausal.Pass
import Clausal.Proofs.RuleAgreement

/-!
# What is built depends on trees only

`Pools.Agree` relates two building actions, one on each of two pools: if both
succeed, their results are related in the pools that they leave. Varied expressions
are built from varied expressions, so the tree of what a rule, a circuit or a step
of a pass returns is determined by the tree that it is given, up to the order of the
operands of free operators.
-/

namespace Clausal

namespace Build

variable {pool : Pool}

/-- An action succeeds with `done` at the end or fails; in any case the pool grows. -/
abbrev Makes {α : Type} (action : Build α) (pool : Pool) (done : α → Pool → Prop) : Prop :=
  Stateful.Tries Pool.Grows action pool done True

theorem Yields.makes {α : Type} {action : Build α} {done : α → Pool → Prop}
    (yields : Yields action pool done) : Makes action pool done :=
  (Stateful.Yields.tries yields).weaken fun _ _ advances => advances.toGrows

theorem apply_makes (op : Op) (operands : List ExprId) :
    Makes (apply op operands) pool fun e after =>
      ∃ ty, after.node? e = some ⟨ty, .apply op operands⟩ := by
  cases checked : pool.typing op operands with
  | ok ty =>
    exact Yields.makes ((apply_yields (Pool.typing_eq_ok_iff.mp checked)).mono
      fun _ _ _ stored => ⟨ty, stored⟩)
  | error failure =>
    unfold Makes Stateful.Tries Stateful.Meets apply
    rw [checked]
    exact ⟨refl pool, trivial⟩

theorem const_makes (ty : Ty) (value : Value) :
    Makes (const ty value) pool fun e after => after.node? e = some ⟨ty, .const value⟩ := by
  unfold const
  split
  · rename_i admitted
    exact (leaf_grows admitted).tries
  · exact ⟨refl pool, trivial⟩

theorem word_makes (width number : Nat) :
    Makes (word width number) pool fun e after =>
      after.node? e = some ⟨.uint width, .const (.uint number)⟩ := by
  unfold word
  split
  · exact ⟨refl pool, trivial⟩
  · exact const_makes _ _

end Build

namespace Pool

variable {pool before after : Pool} {width : Nat} {e : ExprId} {row : List ExprId}

/-- The tree of one low bit of a word of a type. -/
def lowTree (ty : Ty) (tree : Tree) (index : Nat) : Tree :=
  if index < ty.width?.getD 0 then .apply (.bit index) [tree] else .const .bool (.bool false)

/-- A row has the trees of the low bits of a word. -/
def LowBits (pool : Pool) (width : Nat) (e : ExprId) (row : List ExprId) : Prop :=
  ∃ ty, pool.HasTy e ty ∧ List.Forall₂ (fun index bit => pool.Has bit ∧
    pool.tree bit = lowTree ty (pool.tree e) index) (List.range width) row

theorem LowBits.mono (extension : before.Extends after) (low : before.LowBits width e row) :
    after.LowBits width e row := by
  obtain ⟨ty, hasTy, each⟩ := low
  refine ⟨ty, extension.hasTy hasTy, each.imp fun index bit found => ?_⟩
  rw [extension.tree_eq found.1, extension.tree_eq hasTy.has]
  exact ⟨extension.has found.1, found.2⟩

end Pool

theorem Build.lowBits_makes {pool : Pool} {e : ExprId} (width : Nat) (stored : pool.Has e) :
    Makes (Circuit.lowBits width e) pool fun row after => after.LowBits width e row := by
  obtain ⟨⟨ty, form⟩, found⟩ := Pool.has_iff.mp stored
  have hasTy : pool.HasTy e ty := ⟨form, found⟩
  have bits : Makes ((List.range width).mapM fun index =>
      if index < ty.width?.getD 0 then bit index e else truth false) pool
      fun row after => after.LowBits width e row := by
    refine Stateful.Tries.mono (Stateful.Tries.mapM (fun index bit after =>
      after.Has bit ∧ after.tree bit = Pool.lowTree ty (pool.tree e) index) ?stable ?each) ?low id
    case stable =>
      rintro index bit before after grows ⟨has, same⟩
      exact ⟨grows.extension.has has, (grows.extension.tree_eq has).trans same⟩
    case each =>
      intro index _ after grows
      unfold Pool.lowTree
      split
      · refine (apply_makes (.bit index) [e]).mono ?_ id
        rintro bit last further ⟨ty, made⟩
        refine ⟨Pool.has_iff.mpr ⟨_, made⟩, ?_⟩
        rw [Pool.tree_apply made, List.map_singleton, further.extension.tree_eq (grows.extension.has stored),
          grows.extension.tree_eq stored]
      · refine (Yields.makes (truth_yields false)).mono ?_ id
        exact fun bit last _ made => ⟨Pool.has_iff.mpr ⟨_, made⟩, Pool.tree_const made⟩
    case low =>
      intro row after grows each
      rw [← grows.extension.tree_eq stored] at each
      exact ⟨ty, grows.extension.hasTy hasTy, each⟩
  unfold Makes Stateful.Tries Stateful.Meets Circuit.lowBits at *
  rwa [tyOf_bind hasTy, collect_eq]

namespace Draft

variable {pool before after : Pool} {draft : Draft}

theorem Known.mono (extension : before.Extends after) (known : draft.Known before) :
    draft.Known after :=
  known.imp (fun _ => extension.has) fun _ => id

theorem Known.tree_eq (extension : before.Extends after) (known : draft.Known before) :
    draft.tree after = draft.tree before := by
  induction draft using Draft.induction with
  | known e => exact extension.tree_eq known
  | const | word => rfl
  | apply op operands inductionHypothesis =>
    rw [tree_apply, tree_apply, List.map_congr_left fun operand member =>
      inductionHypothesis operand member ((draws_apply.mp known).2 operand member)]

/-- What is built from a draft has the tree of the draft. -/
theorem build_makes (known : draft.Known pool) :
    Build.Makes draft.build pool fun e after => after.Has e ∧ after.tree e = draft.tree pool := by
  induction draft using Draft.induction generalizing pool with
  | known e => exact .pure ⟨known, rfl⟩
  | const ty value =>
    refine (Build.const_makes ty value).mono (fun e after _ stored => ?_) id
    exact ⟨Pool.has_iff.mpr ⟨_, stored⟩, Pool.tree_const stored⟩
  | word width number =>
    refine (Build.word_makes width number).mono (fun e after _ stored => ?_) id
    exact ⟨Pool.has_iff.mpr ⟨_, stored⟩, Pool.tree_const stored⟩
  | apply op operands inductionHypothesis =>
    have each := (draws_apply.mp known).2
    rw [build_apply]
    refine (Stateful.Tries.mapM (fun operand e after => after.Has e ∧ after.tree e = operand.tree pool)
      ?stable ?each).bind ?combine
    case stable =>
      rintro operand e before after grows ⟨stored, same⟩
      exact ⟨grows.extension.has stored, (grows.extension.tree_eq stored).trans same⟩
    case each =>
      intro operand member after grows
      have operandKnown : operand.Known pool := each operand member
      refine (inductionHypothesis operand member (operandKnown.mono grows.extension)).mono ?_ id
      rintro e final - ⟨stored, same⟩
      exact ⟨stored, same.trans (operandKnown.tree_eq grows.extension)⟩
    case combine =>
      intro built middle _ made
      refine (Build.apply_makes op built).mono ?_ id
      rintro e after grows ⟨ty, stored⟩
      refine ⟨Pool.has_iff.mpr ⟨_, stored⟩, ?_⟩
      rw [Pool.tree_apply stored, tree_apply]
      refine congrArg _ (List.forall₂_eq_eq_eq ▸ ?_)
      rw [List.forall₂_map_left_iff, List.forall₂_map_right_iff]
      exact made.flip.imp fun e operand found => (grows.extension.tree_eq found.1).trans found.2

end Draft

namespace Pass

variable {pool : Pool} {e operand : ExprId}

/-- The operand of two negations has a smaller number. -/
theorem index_lt_of_pair (pair : (pool.negated? e).bind pool.negated? = some operand) :
    operand.index < e.index := by
  obtain ⟨inner, outer, pair⟩ := Option.bind_eq_some_iff.mp pair
  obtain ⟨_, _, outerStored⟩ := Pool.negated?_eq_some_iff.mp outer
  obtain ⟨_, _, innerStored⟩ := Pool.negated?_eq_some_iff.mp pair
  have further : operand.index < inner.index := Pool.index_lt_of_node? innerStored List.mem_cons_self
  exact further.trans (Pool.index_lt_of_node? outerStored List.mem_cons_self)

/-- Two negations at the top are stripped, and then those below. -/
theorem stripPairs_eq (pool : Pool) (e : ExprId) :
    stripPairs pool e =
      match (pool.negated? e).bind pool.negated? with
      | some operand => stripPairs pool operand
      | none => e := by
  rw [stripPairs]
  split
  · rename_i outer
    rw [Pool.negated?_eq_some_iff.mpr ⟨_, _, outer⟩, Option.bind_some]
    split
    · rename_i pair
      rw [Pool.negated?_eq_some_iff.mpr ⟨_, _, pair⟩]
    · rename_i noPair
      cases found : pool.negated? _ with
      | none => rfl
      | some operand =>
        obtain ⟨_, _, stored⟩ := Pool.negated?_eq_some_iff.mp found
        exact (noPair _ _ _ stored).elim
  · rename_i noNegation
    cases found : pool.negated? e with
    | none => rfl
    | some inner =>
      obtain ⟨_, _, stored⟩ := Pool.negated?_eq_some_iff.mp found
      exact (noNegation _ _ _ stored).elim

end Pass

namespace Pools

variable {α β γ δ : Type} {pools : Pools} {free : Op → Prop} {a b c d x y z : ExprId}
  {xs ys : List ExprId}

/-- Two building actions, one on each pool, have related results if both succeed. -/
def Agree (pools : Pools) (action : Build α) (other : Build β) (related : α → β → Pools → Prop) :
    Prop :=
  ∀ ⦃r : α⦄ ⦃s : β⦄ ⦃left right : Pool⦄, action pools.left = .ok r left →
    other pools.right = .ok s right →
      ∃ after : Pools, after.left = left ∧ after.right = right ∧ pools.Extends after ∧ related r s after

namespace Agree

variable {action : Build α} {other : Build β} {related : α → β → Pools → Prop}

theorem pure {r : α} {s : β} (holds : related r s pools) :
    pools.Agree (Pure.pure r) (Pure.pure s) related := by
  rintro _ _ _ _ ⟨⟩ ⟨⟩
  exact ⟨pools, rfl, rfl, refl pools, holds⟩

theorem bind {next : α → Build γ} {otherNext : β → Build δ} {last : γ → δ → Pools → Prop}
    (first : pools.Agree action other related)
    (second : ∀ r s after, pools.Extends after → related r s after →
      after.Agree (next r) (otherNext s) last) :
    pools.Agree (action >>= next) (other >>= otherNext) last := by
  intro r s left right ended otherEnded
  obtain ⟨middle, _, isMiddle, ended⟩ := Stateful.bind_eq_ok.mp ended
  obtain ⟨otherMiddle, _, isOtherMiddle, otherEnded⟩ := Stateful.bind_eq_ok.mp otherEnded
  obtain ⟨between, rfl, rfl, toBetween, holds⟩ := first isMiddle isOtherMiddle
  obtain ⟨after, isLeft, isRight, toAfter, holds⟩ :=
    second middle otherMiddle between toBetween holds ended otherEnded
  exact ⟨after, isLeft, isRight, IsTrans.trans _ _ _ toBetween toAfter, holds⟩

theorem get {next : Pool → Build γ} {otherNext : Pool → Build δ} {last : γ → δ → Pools → Prop}
    (rest : pools.Agree (next pools.left) (otherNext pools.right) last) :
    pools.Agree (MonadState.get >>= next) (MonadState.get >>= otherNext) last :=
  rest

theorem ofExcept {source : Except Fault α} {otherSource : Except Fault β} {next : α → Build γ}
    {otherNext : β → Build δ} {last : γ → δ → Pools → Prop}
    (rest : ∀ r s, source = .ok r → otherSource = .ok s → pools.Agree (next r) (otherNext s) last) :
    pools.Agree (Stateful.ofExcept source >>= next) (Stateful.ofExcept otherSource >>= otherNext) last := by
  intro r s left right ended otherEnded
  obtain ⟨found, _, isFound, ended⟩ := Stateful.bind_eq_ok.mp ended
  obtain ⟨otherFound, _, isOtherFound, otherEnded⟩ := Stateful.bind_eq_ok.mp otherEnded
  obtain ⟨isOk, rfl⟩ := Stateful.ofExcept_eq_ok.mp isFound
  obtain ⟨isOtherOk, rfl⟩ := Stateful.ofExcept_eq_ok.mp isOtherFound
  exact rest found otherFound isOk isOtherOk ended otherEnded

/-- A failure on one side leaves nothing to relate. -/
theorem breach_left {fault : Fault} : pools.Agree (Stateful.breach fault) other related :=
  fun _ _ _ _ ended _ => by cases ended

theorem breach_right {fault : Fault} : pools.Agree action (Stateful.breach fault) related :=
  fun _ _ _ _ _ ended => by cases ended

/-- Related items have related results. -/
theorem mapM {items : List γ} {others : List δ} {matching : γ → δ → Prop} {step : γ → Build α}
    {otherStep : δ → Build β}
    (stable : ∀ r s before after, before.Extends after → related r s before → related r s after)
    (each : List.Forall₂ matching items others)
    (steps : ∀ item other after, pools.Extends after → matching item other →
      after.Agree (step item) (otherStep other) related) :
    pools.Agree (items.mapM step) (others.mapM otherStep) fun results others after =>
      List.Forall₂ (fun r s => related r s after) results others := by
  induction each generalizing pools with
  | nil => exact pure .nil
  | cons matched _ inductionHypothesis =>
    rw [List.mapM_cons, List.mapM_cons]
    refine (steps _ _ pools (refl pools) matched).bind fun r s middle toMiddle holds => ?_
    refine (inductionHypothesis fun item other after later matched =>
      steps item other after (IsTrans.trans _ _ _ toMiddle later) matched).bind ?_
    exact fun rs ss after later rest => pure (.cons (stable r s middle after later holds) rest)

/-- What is known of both actions on their own. -/
theorem of_makes {done : α → Pool → Prop} {otherDone : β → Pool → Prop}
    (makes : Build.Makes action pools.left done) (otherMakes : Build.Makes other pools.right otherDone)
    (both : ∀ r s after, pools.Extends after → done r after.left → otherDone s after.right →
      related r s after) : pools.Agree action other related := by
  intro r s left right ended otherEnded
  obtain ⟨grows, holds⟩ := makes.of_ok ended
  obtain ⟨otherGrows, otherHolds⟩ := otherMakes.of_ok otherEnded
  let after : Pools := ⟨left, right, grows.wellTyped pools.leftTyped, otherGrows.wellTyped pools.rightTyped⟩
  have extension : pools.Extends after := ⟨grows.extension, otherGrows.extension⟩
  exact ⟨after, rfl, rfl, extension, both r s after extension holds otherHolds⟩

end Agree

/-- The results of two actions are varied. -/
abbrev Accord (pools : Pools) (free : Op → Prop) (action other : Build ExprId) : Prop :=
  pools.Agree action other fun r s after => after.Varied free r s

/-- The results of two rules, if any, are varied. -/
abbrev Similar (pools : Pools) (free : Op → Prop) (rule other : Build (Option ExprId)) : Prop :=
  pools.Agree rule other fun r s after => Option.Rel (after.Varied free) r s

section Building

theorem aligned_mono {before after : Pools} {loose : Prop} (extension : before.Extends after)
    (aligned : Aligned loose (before.Varied free) xs ys) : Aligned loose (after.Varied free) xs ys :=
  aligned.imp fun _ _ => .mono extension

theorem has_of_aligned {loose : Prop} (aligned : Aligned loose (pools.Varied free) xs ys) :
    (∀ e ∈ xs, pools.left.Has e) ∧ ∀ e ∈ ys, pools.right.Has e := by
  constructor
  · intro e member
    obtain ⟨_, -, varied⟩ := aligned.exists_of_mem_left member
    exact varied.left
  · intro e member
    obtain ⟨_, -, varied⟩ := aligned.exists_of_mem_right member
    exact varied.right

theorem apply_accord (op : Op) (aligned : Aligned (free op) (pools.Varied free) xs ys) :
    pools.Accord free (Build.apply op xs) (Build.apply op ys) := by
  refine .of_makes (Build.apply_makes op xs) (Build.apply_makes op ys) ?_
  rintro r s after extension ⟨ty, stored⟩ ⟨otherTy, otherStored⟩
  exact .of_apply stored otherStored (aligned_mono extension aligned)

theorem truth_accord (value : Bool) :
    pools.Accord free (Build.truth value) (Build.truth value) := by
  refine .of_makes (Build.Yields.makes (Build.truth_yields value))
    (Build.Yields.makes (Build.truth_yields value)) fun r s after _ stored otherStored => ?_
  exact (SameNode.const stored otherStored).alike.varied

/-- Drafts with varied trees are built to varied expressions. -/
theorem build_accord {draft other : Draft} (varied : pools.VariedDraft free draft other) :
    pools.Accord free draft.build other.build := by
  refine .of_makes (Draft.build_makes varied.left) (Draft.build_makes varied.right) ?_
  rintro r s after _ ⟨stored, unfolds⟩ ⟨otherStored, otherUnfolds⟩
  refine ⟨stored, otherStored, ?_⟩
  rw [unfolds, otherUnfolds]
  exact varied.varies

theorem Accord.similar {action other : Build ExprId} (accord : pools.Accord free action other) :
    pools.Similar free (do let r ← action; return some r) (do let r ← other; return some r) :=
  Agree.bind accord fun _ _ _ _ varied => .pure (.some varied)

theorem build?_similar {proposal other : Option Draft}
    (varied : pools.VariedProposal free proposal other) :
    pools.Similar free (Draft.build? proposal) (Draft.build? other) := by
  cases varied with
  | none => exact .pure .none
  | some varied => exact (build_accord varied).similar

theorem tyOf_agree {ty : Ty} {next : Ty → Build α} {otherNext : Ty → Build β}
    {related : α → β → Pools → Prop} (left : pools.left.HasTy a ty) (right : pools.right.HasTy b ty)
    (rest : pools.Agree (next ty) (otherNext ty) related) :
    pools.Agree (Build.tyOf a >>= next) (Build.tyOf b >>= otherNext) related := by
  unfold Agree
  rw [Build.tyOf_bind left, Build.tyOf_bind right]
  exact rest

theorem collect_agree {step other : Nat → Build ExprId} (count : Nat)
    (each : ∀ index after, pools.Extends after → after.Accord free (step index) (other index)) :
    pools.Agree (Build.collect count step) (Build.collect count other) fun row others after =>
      List.Forall₂ (after.Varied free) row others := by
  rw [Build.collect_eq, Build.collect_eq]
  refine .mapM (fun r s before after extension varied => varied.mono extension)
    (List.forall₂_same.mpr fun index _ => (rfl : index = index)) ?_
  rintro index _ after extension rfl
  exact each index after extension

end Building

section Circuits

variable {columns others : List (ExprId × ExprId)} {carry otherCarry : Option ExprId} {width : Nat}

/-- Rows of varied expressions. -/
abbrev Rows (pools : Pools) (free : Op → Prop) (row other : List ExprId) : Prop :=
  List.Forall₂ (pools.Varied free) row other

/-- Columns of two varied expressions each, in any order if that does not matter to a
sum. -/
abbrev Columns (pools : Pools) (free : Op → Prop) (columns others : List (ExprId × ExprId)) : Prop :=
  List.Forall₂ (fun column other => Aligned (free .and ∧ free .xor) (pools.Varied free)
    [column.1, column.2] [other.1, other.2]) columns others

theorem rows_mono {before after : Pools} (extension : before.Extends after)
    (each : before.Rows free xs ys) : after.Rows free xs ys :=
  each.imp fun _ _ => .mono extension

theorem columns_mono {before after : Pools} (extension : before.Extends after)
    (each : before.Columns free columns others) : after.Columns free columns others :=
  each.imp fun _ _ => aligned_mono extension

theorem columns_zip {vs ws : List ExprId} (first : pools.Rows free xs ys)
    (second : pools.Rows free vs ws) : pools.Columns free (xs.zip vs) (ys.zip ws) := by
  induction first generalizing vs ws with
  | nil => exact .nil
  | cons varied _ inductionHypothesis =>
    cases second with
    | nil => exact .nil
    | cons other rest =>
      exact .cons (.of_forall₂ (.cons varied (.cons other .nil))) (inductionHypothesis rest)

/-- Rows may change places in a sum. -/
theorem columns_zip_swap {vs ws : List ExprId} (isLoose : free .and ∧ free .xor)
    (first : pools.Rows free xs ws) (second : pools.Rows free vs ys) :
    pools.Columns free (xs.zip vs) (ys.zip ws) := by
  induction first generalizing vs ys with
  | nil =>
    rw [List.zip_nil_right]
    exact .nil
  | cons varied _ inductionHypothesis =>
    cases second with
    | nil => exact .nil
    | cons other rest =>
      refine .cons ?_ (inductionHypothesis rest)
      exact .of_perm isLoose (.cons varied (.cons other .nil)) (.swap _ _ _)

theorem gate_accord (op : Op) (first : pools.Varied free a x) (second : pools.Varied free b y) :
    pools.Accord free (Build.apply op [a, b]) (Build.apply op [x, y]) :=
  apply_accord op (.of_forall₂ (.cons first (.cons second .nil)))

theorem ripple_agree (carries : Option.Rel (pools.Varied free) carry otherCarry)
    (each : pools.Columns free columns others) :
    pools.Agree (Circuit.ripple carry columns) (Circuit.ripple otherCarry others) fun row other after =>
      after.Rows free row other := by
  induction columns generalizing pools others carry otherCarry with
  | nil =>
    cases each
    cases carries <;> exact .pure .nil
  | cons column columns inductionHypothesis =>
    obtain _ | @⟨_, other, _, others, aligned, rest⟩ := each
    obtain ⟨a, b⟩ := column
    obtain ⟨x, y⟩ := other
    have sums := aligned.loosen And.right
    have products := aligned.loosen And.left
    have sameEnd : columns.isEmpty = others.isEmpty := by cases rest <;> rfl
    cases carries with
    | none =>
      unfold Circuit.ripple
      refine (apply_accord .xor sums).bind fun half otherHalf p toHalf halves => ?_
      rw [sameEnd]
      split
      · exact .pure (.cons halves .nil)
      · refine (apply_accord .and (aligned_mono toHalf products)).bind
          fun next otherNext q toNext nexts => ?_
        refine (inductionHypothesis (.some nexts)
          (columns_mono (IsTrans.trans _ _ _ toHalf toNext) rest)).bind fun row other after toRow rows => ?_
        exact .pure (.cons (halves.mono (IsTrans.trans _ _ _ toNext toRow)) rows)
    | some carries =>
      unfold Circuit.ripple
      refine (apply_accord .xor sums).bind fun half otherHalf p toHalf halves => ?_
      refine (gate_accord .xor halves (carries.mono toHalf)).bind fun digit otherDigit q toDigit digits => ?_
      have upToDigit := IsTrans.trans _ _ _ toHalf toDigit
      rw [sameEnd]
      split
      · exact .pure (.cons digits .nil)
      · refine (apply_accord .and (aligned_mono upToDigit products)).bind
          fun generated otherGenerated r toGenerated generateds => ?_
        have fromHalf := IsTrans.trans _ _ _ toDigit toGenerated
        refine (gate_accord .and (carries.mono (IsTrans.trans _ _ _ toHalf fromHalf))
          (halves.mono fromHalf)).bind fun propagated otherPropagated s toPropagated propagateds => ?_
        refine (gate_accord .or (generateds.mono toPropagated) propagateds).bind
          fun next otherNext t toNext nexts => ?_
        have fromDigit := IsTrans.trans _ _ _ toGenerated (IsTrans.trans _ _ _ toPropagated toNext)
        refine (inductionHypothesis (.some nexts)
          (columns_mono (IsTrans.trans _ _ _ upToDigit fromDigit) rest)).bind
          fun row other after toRow rows => ?_
        exact .pure (.cons (digits.mono (IsTrans.trans _ _ _ fromDigit toRow)) rows)

/-- Rows of one length are added alike. -/
theorem sum_agree {vs ws : List ExprId} (each : pools.Columns free (xs.zip vs) (ys.zip ws)) :
    pools.Agree (Circuit.sum xs vs) (Circuit.sum ys ws) fun row other after =>
      after.Rows free row other := by
  unfold Circuit.sum
  split
  · split
    · exact ripple_agree .none each
    · exact .breach_right
  · exact .breach_left

theorem partialProduct_agree {digits otherDigits : List ExprId} (digit count : Nat)
    (each : pools.Rows free xs ys) (all : pools.Rows free digits otherDigits) :
    pools.Agree (Circuit.partialProduct xs digits digit count)
      (Circuit.partialProduct ys otherDigits digit count) fun row other after =>
        after.Rows free row other := by
  refine collect_agree count fun index after extension => ?_
  refine .ofExcept fun a x isDigit isOther => .ofExcept fun b y isFactor isOtherFactor => ?_
  exact gate_accord .and ((rel_of_entry each isDigit isOther).mono extension)
    ((rel_of_entry all isFactor isOtherFactor).mono extension)

theorem addRows_agree {digits otherDigits row otherRow : List ExprId} {count digit : Nat}
    (each : pools.Rows free xs ys) (rows : pools.Rows free row otherRow)
    (all : pools.Rows free digits otherDigits) :
    pools.Agree (Circuit.addRows xs digits count digit row)
      (Circuit.addRows ys otherDigits count digit otherRow) fun result other after =>
        after.Rows free result other := by
  induction count generalizing pools row otherRow digit with
  | zero => exact .pure rows
  | succ count inductionHypothesis =>
    unfold Circuit.addRows
    refine (partialProduct_agree digit (count + 1) each all).bind
      fun product other p toProduct products => ?_
    cases rows with
    | nil => exact .breach_left
    | cons column rest =>
      refine (sum_agree (columns_zip (rows_mono toProduct rest) products)).bind
        fun total otherTotal q toTotal totals => ?_
      have upToTotal := IsTrans.trans _ _ _ toProduct toTotal
      refine (inductionHypothesis (rows_mono upToTotal each) totals (rows_mono upToTotal all)).bind ?_
      exact fun result other after toResult results =>
        .pure (.cons (column.mono (IsTrans.trans _ _ _ upToTotal toResult)) results)

theorem lowBits_agree (width : Nat) (left : pools.left.Has a) (right : pools.right.Has b) :
    pools.Agree (Circuit.lowBits width a) (Circuit.lowBits width b) fun row other after =>
      after.left.LowBits width a row ∧ after.right.LowBits width b other :=
  .of_makes (Build.lowBits_makes width left) (Build.lowBits_makes width right)
    fun _ _ _ _ low otherLow => ⟨low, otherLow⟩

/-- The low bits of varied expressions are varied. -/
theorem rows_of_lowBits {row other : List ExprId} (commutative : ∀ {op}, free op → op.isCommutative)
    (varied : pools.Varied free a x) (low : pools.left.LowBits width a row)
    (otherLow : pools.right.LowBits width x other) : pools.Rows free row other := by
  obtain ⟨ty, hasTy, each⟩ := low
  obtain ⟨otherTy, otherHasTy, otherEach⟩ := otherLow
  obtain rfl := ((varied.matched commutative).hasTy_iff.mp hasTy).unique otherHasTy
  refine forall₂_join each otherEach fun index _ bit otherBit found otherFound => ?_
  refine ⟨found.1, otherFound.1, ?_⟩
  rw [found.2, otherFound.2, Pool.lowTree, Pool.lowTree]
  split
  · exact .apply (.of_forall₂ (.cons varied.varies .nil))
  · exact .refl _

/-- The columns of a sum are varied, in any order if the words may change places. -/
theorem columns_of_lowBits {row low other otherLow : List ExprId} (interchange : Op.Interchange free)
    (aligned : Aligned (free (.add width)) (pools.Varied free) [a, b] [x, y])
    (isRow : pools.left.LowBits width a row) (isLow : pools.left.LowBits width b low)
    (isOther : pools.right.LowBits width x other) (isOtherLow : pools.right.LowBits width y otherLow) :
    pools.Columns free (row.zip low) (other.zip otherLow) := by
  obtain ⟨v, w, first, second, order⟩ := aligned.pair
  rcases order with same | ⟨isFree, same⟩ <;> cases same
  · exact columns_zip (rows_of_lowBits interchange.commutative first isRow isOther)
      (rows_of_lowBits interchange.commutative second isLow isOtherLow)
  · exact columns_zip_swap (interchange.of_add isFree)
      (rows_of_lowBits interchange.commutative first isRow isOtherLow)
      (rows_of_lowBits interchange.commutative second isLow isOther)

theorem add_accord (interchange : Op.Interchange free)
    (aligned : Aligned (free (.add width)) (pools.Varied free) [a, b] [x, y]) :
    pools.Accord free (Circuit.add width a b) (Circuit.add width x y) := by
  obtain ⟨has, otherHas⟩ := has_of_aligned aligned
  refine (lowBits_agree width (has a (by simp)) (otherHas x (by simp))).bind
    fun row other p toRow lows => ?_
  refine (lowBits_agree width (toRow.left.has (has b (by simp)))
    (toRow.right.has (otherHas y (by simp)))).bind fun low otherLow q toLow lowsAgain => ?_
  have columns := columns_of_lowBits interchange
    (aligned_mono (IsTrans.trans _ _ _ toRow toLow) aligned) (lows.1.mono toLow.left) lowsAgain.1
    (lows.2.mono toLow.right) lowsAgain.2
  refine (sum_agree columns).bind ?_
  exact fun total otherTotal r _ totals => apply_accord .bits (.of_forall₂ totals)

theorem mul_accord (commutative : ∀ {op}, free op → op.isCommutative) (first : pools.Varied free a x)
    (second : pools.Varied free b y) :
    pools.Accord free (Circuit.mul width a b) (Circuit.mul width x y) := by
  refine (lowBits_agree width first.left first.right).bind fun row other p toRow lows => ?_
  have second := second.mono toRow
  refine (lowBits_agree width second.left second.right).bind fun low otherLow q toLow lowsAgain => ?_
  have rows := rows_of_lowBits commutative (first.mono (IsTrans.trans _ _ _ toRow toLow))
    (lows.1.mono toLow.left) (lows.2.mono toLow.right)
  have digits := rows_of_lowBits commutative (second.mono toLow) lowsAgain.1 lowsAgain.2
  rw [← rows.length_eq]
  refine (partialProduct_agree 0 row.length rows digits).bind
    fun product otherProduct r toProduct products => ?_
  refine (addRows_agree (rows_mono toProduct rows) products (rows_mono toProduct digits)).bind ?_
  exact fun result otherResult s _ results => apply_accord .bits (.of_forall₂ results)

end Circuits

section Steps

open Rules

variable {op : Op}

theorem wordChoice_accord (width : Nat) (first : pools.Varied free a x) (second : pools.Varied free b y)
    (third : pools.Varied free c z) :
    pools.Accord free (wordChoice width a b c) (wordChoice width x y z) := by
  have part : ∀ {e other} index after, pools.Extends after → pools.Varied free e other →
      after.VariedDraft free (.ofKnown (.bit index) [e]) (.ofKnown (.bit index) [other]) :=
    fun index after extension varied =>
      .ofKnown _ (.of_forall₂ (.cons (varied.mono extension) .nil))
  refine (collect_agree width fun index after extension => build_accord ?_).bind
    fun row other after _ rows => apply_accord .bits (.of_forall₂ rows)
  exact .apply .ite (.of_forall₂ (.cons (.known (first.mono extension))
    (.cons (part index after extension second) (.cons (part index after extension third) .nil))))

theorem partwiseEquality_accord (select : Nat → Op) (count : Nat)
    (aligned : Aligned (free .eq) (pools.Varied free) [a, b] [x, y]) :
    pools.Accord free (partwiseEquality select count a b) (partwiseEquality select count x y) := by
  refine (collect_agree count fun index after extension => build_accord ?_).bind
    fun row other after _ rows => apply_accord .and (.of_forall₂ rows)
  have parts : Aligned (free .eq) (after.VariedDraft free)
      ([a, b].map fun e => Draft.ofKnown (select index) [e])
      ([x, y].map fun e => Draft.ofKnown (select index) [e]) :=
    (aligned_mono extension aligned).map fun _ _ varied =>
      .ofKnown _ (.of_forall₂ (.cons varied .nil))
  exact .apply .eq parts

theorem decomposeChoice_similar (ty : Ty) (first : pools.Varied free a x) (second : pools.Varied free b y)
    (third : pools.Varied free c z) :
    pools.Similar free (decomposeChoice ty a b c) (decomposeChoice ty x y z) := by
  cases ty with
  | bool =>
    refine (build_accord ?_).similar
    exact .apply .or (.of_forall₂ (.cons (.ofKnown .and (.of_forall₂ (.cons first (.cons second .nil))))
      (.cons (.apply .and (.of_forall₂ (.cons (.negation first) (.cons (.known third) .nil)))) .nil)))
  | uint width => exact (wordChoice_accord width first second third).similar
  | tuple fields => exact .pure .none

theorem decomposeEquality_similar (ty : Ty)
    (aligned : Aligned (free .eq) (pools.Varied free) [a, b] [x, y]) :
    pools.Similar free (decomposeEquality ty a b) (decomposeEquality ty x y) := by
  cases ty with
  | bool => exact .pure .none
  | uint width => exact (partwiseEquality_accord .bit width aligned).similar
  | tuple fields =>
    cases fields with
    | nil => exact (truth_accord true).similar
    | cons field fields => exact (partwiseEquality_accord .field _ aligned).similar

/-- Varied applications are decomposed alike. -/
theorem decompose_similar {e : ExprId} {ty : Ty} (interchange : Op.Interchange free)
    (stored : pools.left.node? e = some ⟨ty, .apply op xs⟩)
    (aligned : Aligned (free op) (pools.Varied free) xs ys) :
    pools.Similar free (decompose op xs) (decompose op ys) := by
  obtain ⟨types, hasTys, operator⟩ := (pools.leftTyped.fits stored).typed
  cases operator with
  | implies =>
    obtain ⟨a, b, -, -, rfl⟩ := forall₂_two.mp hasTys.flip
    obtain ⟨x, y, first, second, rfl⟩ := forall₂_two.mp
      (aligned.inOrder (interchange.not_free rfl))
    exact (build_accord (.apply .or (.of_forall₂ (.cons (.negation first)
      (.cons (.known second) .nil))))).similar
  | ite =>
    have each := aligned.inOrder (interchange.not_free rfl)
    obtain _ | ⟨-, _ | ⟨hasTy, _ | ⟨-, _ | -⟩⟩⟩ := hasTys
    obtain _ | ⟨first, _ | ⟨second, _ | ⟨third, _ | -⟩⟩⟩ := each
    exact tyOf_agree hasTy ((second.matched interchange.commutative).hasTy_iff.mp hasTy)
      (decomposeChoice_similar _ first second third)
  | eq operandTy =>
    obtain ⟨a, b, hasTy, otherHasTy, rfl⟩ := forall₂_two.mp hasTys.flip
    obtain ⟨x, y, rfl, headTy⟩ : ∃ x y, ys = [x, y] ∧ pools.right.HasTy x operandTy := by
      obtain ⟨x, y, first, second, rfl | ⟨-, rfl⟩⟩ := aligned.pair
      · exact ⟨x, y, rfl, (first.matched interchange.commutative).hasTy_iff.mp hasTy⟩
      · exact ⟨y, x, rfl, (second.matched interchange.commutative).hasTy_iff.mp otherHasTy⟩
    exact tyOf_agree hasTy headTy (decomposeEquality_similar operandTy aligned)
  | add =>
    obtain ⟨a, b, -, -, rfl⟩ := forall₂_two.mp hasTys.flip
    obtain ⟨x, y, rfl⟩ := List.length_eq_two.mp aligned.length_eq.symm
    exact (add_accord interchange aligned).similar
  | mul =>
    obtain ⟨a, b, -, -, rfl⟩ := forall₂_two.mp hasTys.flip
    obtain ⟨x, y, first, second, rfl⟩ := forall₂_two.mp (aligned.inOrder interchange.not_mul)
    exact (mul_accord interchange.commutative first second).similar
  | _ => exact .pure .none

/-- Matching applications are simplified alike. -/
theorem simplify_similar {related : ExprId → ExprId → Prop} {e other : ExprId} {ty : Ty}
    (matching : pools.Matching free related) (interchange : Op.Interchange free) (top : related e other)
    (stored : pools.left.node? e = some ⟨ty, .apply op xs⟩)
    (otherStored : pools.right.node? other = some ⟨ty, .apply op ys⟩)
    (aligned : Aligned (free op) related xs ys) :
    pools.Similar free (simplify op xs) (simplify op ys) :=
  .get (.ofExcept fun _ _ left right => build?_similar
    (simplification_varied matching interchange top stored otherStored aligned left right))

theorem negate_similar {e : ExprId} {ty : Ty} (interchange : Op.Interchange free)
    (stored : pools.left.node? e = some ⟨ty, .apply op xs⟩)
    (aligned : Aligned (free op) (pools.Varied free) xs ys) (ordered : op = .xor → ¬ free op) :
    pools.Similar free (negate op xs) (negate op ys) :=
  .get (.ofExcept fun _ _ left right => build?_similar
    (negation_varied interchange stored aligned ordered left right))

theorem canonicalize_similar (each : List.Forall₂ pools.Alike xs ys) :
    pools.Similar free (canonicalize op xs) (canonicalize op ys) :=
  .get (build?_similar (canonicalization_alike each))

/-- A rule at the top of matched nodes makes varied expressions of them. -/
theorem atTop_accord {applies : Op → Bool} {rule : Op → List ExprId → Build (Option ExprId)}
    {related : ExprId → ExprId → Prop} (varied : pools.Varied free a b)
    (matched : pools.Matched free related a b)
    (similar : ∀ {ty op xs ys}, pools.left.node? a = some ⟨ty, .apply op xs⟩ →
      pools.right.node? b = some ⟨ty, .apply op ys⟩ → Aligned (free op) related xs ys →
        pools.Similar free (rule op xs) (rule op ys)) :
    pools.Accord free (Pass.atTop applies rule a) (Pass.atTop applies rule b) := by
  refine .get ?_
  cases matched with
  | var left right | const left right =>
    rw [left, right]
    exact .pure varied
  | apply left right aligned =>
    rw [left, right]
    dsimp only
    split
    · refine (similar left right aligned).bind fun r s after extension results => .pure ?_
      cases results with
      | none => exact varied.mono extension
      | some result => exact result
    · exact .pure varied

section Negation

variable (interchange : Op.Interchange free) (varied : pools.Varied free a b)
include interchange varied

/-- Pairs of negations are stripped from varied expressions alike. -/
theorem stripPairs_varied :
    pools.Varied free (Pass.stripPairs pools.left a) (Pass.stripPairs pools.right b) := by
  induction index : a.index using Nat.strong_induction_on generalizing a b with
  | _ size inductionHypothesis =>
    subst index
    have inner : Option.Rel (pools.Varied free) ((pools.left.negated? a).bind pools.left.negated?)
        ((pools.right.negated? b).bind pools.right.negated?) := by
      have outer := (varied.matched interchange.commutative).negated? interchange
      revert outer
      generalize pools.left.negated? a = left, pools.right.negated? b = right
      rintro (@⟨_, _, outer⟩ | _)
      · exact (outer.matched interchange.commutative).negated? interchange
      · exact .none
    rw [Pass.stripPairs_eq, Pass.stripPairs_eq]
    generalize found : (pools.left.negated? a).bind pools.left.negated? = left,
      (pools.right.negated? b).bind pools.right.negated? = right at inner ⊢
    cases inner with
    | none => exact varied
    | some operands => exact inductionHypothesis _ (Pass.index_lt_of_pair found) operands rfl

/-- Negations at the top of varied expressions are absorbed alike, if the operands of
an `xor` below them are in the same order. -/
theorem absorb_accord
    (ordered : ∀ inner, pools.left.negated? (Pass.stripPairs pools.left a) = some inner →
      pools.left.op? inner = some .xor → ¬ free .xor) :
    pools.Accord free (Pass.absorb a) (Pass.absorb b) := by
  have top := stripPairs_varied interchange varied
  have inner := (top.matched interchange.commutative).negated? interchange
  refine .get ?_
  dsimp only
  revert inner ordered
  generalize pools.left.negated? (Pass.stripPairs pools.left a) = left,
    pools.right.negated? (Pass.stripPairs pools.right b) = right
  rintro ordered (@⟨x, y, inner⟩ | _)
  · have matched := inner.matched interchange.commutative
    dsimp only
    rw [matched.truth?_eq]
    generalize pools.right.truth? y = constant
    cases constant with
    | some truth => exact truth_accord _
    | none =>
      dsimp only
      cases matched with
      | var left right | const left right =>
        rw [left, right]
        exact .pure top
      | apply left right aligned =>
        rw [left, right]
        dsimp only
        split
        · have inOrder : ∀ {op}, pools.left.op? x = some op → op = .xor → ¬ free op := by
            rintro _ isOp rfl
            exact ordered x rfl isOp
          refine (negate_similar interchange left aligned (inOrder (Pool.op?_of_apply left))).bind
            fun r s after extension results => .pure ?_
          cases results with
          | none => exact top.mono extension
          | some result => exact result
        · exact .pure top
  · exact .pure top

end Negation

end Steps

end Pools

end Clausal
