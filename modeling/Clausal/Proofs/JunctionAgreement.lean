import Mathlib
import Clausal.Proofs.JunctionRules
import Clausal.Proofs.Variations

/-!
# Junctions of matching operands

Rules for expressions of two pools that match propose drafts whose trees vary:
`Pools.VariedDraft`. The rules for `and`, `or` and `clause` look at the operands as a
list. Where the operator is free, the operands may come in another order, and then
what is merged, kept and left out is the same in another order.
-/

namespace Clausal

namespace Draft

variable {pool : Pool} {e : ExprId} {op : Op}

/-- The tree of what is built from a draft. -/
def tree (pool : Pool) : Draft → Tree :=
  fold pool.tree Tree.const Tree.apply

@[simp] theorem tree_known : (known e).tree pool = pool.tree e := rfl

@[simp] theorem tree_const {ty : Ty} {value : Value} : (const ty value).tree pool = .const ty value :=
  rfl

@[simp] theorem tree_word {width number : Nat} :
    (word width number).tree pool = .const (.uint width) (.uint number) :=
  rfl

@[simp] theorem tree_apply {operands : List Draft} :
    (apply op operands).tree pool = .apply op (operands.map (tree pool)) :=
  fold_apply _ _ _ op operands

/-- The expressions in a draft are stored. -/
abbrev Known (pool : Pool) (draft : Draft) : Prop :=
  draft.Draws pool.Has fun _ => True

end Draft

namespace Pools

variable {pools : Pools} {free : Op → Prop} {a b c d : ExprId} {xs ys : List ExprId} {op : Op}

/-- Two drafts, one over each pool, have trees that vary. -/
structure VariedDraft (pools : Pools) (free : Op → Prop) (draft other : Draft) : Prop where
  left : draft.Known pools.left
  right : other.Known pools.right
  varies : Tree.Varies free (draft.tree pools.left) (other.tree pools.right)

namespace VariedDraft

theorem known (varied : pools.Varied free a b) : pools.VariedDraft free (.known a) (.known b) :=
  ⟨varied.left, varied.right, varied.varies⟩

theorem const (ty : Ty) (value : Value) :
    pools.VariedDraft free (.const ty value) (.const ty value) :=
  ⟨trivial, trivial, .refl _⟩

theorem truth (value : Bool) : pools.VariedDraft free (.truth value) (.truth value) :=
  const _ _

theorem word (width number : Nat) :
    pools.VariedDraft free (.word width number) (.word width number) :=
  ⟨trivial, trivial, .refl _⟩

theorem apply (op : Op) {drafts others : List Draft}
    (aligned : Aligned (free op) (pools.VariedDraft free) drafts others) :
    pools.VariedDraft free (.apply op drafts) (.apply op others) := by
  refine ⟨Draft.draws_apply.mpr ⟨trivial, fun draft member => ?_⟩,
    Draft.draws_apply.mpr ⟨trivial, fun other member => ?_⟩, ?_⟩
  · obtain ⟨_, -, varied⟩ := aligned.exists_of_mem_left member
    exact varied.left
  · obtain ⟨_, -, varied⟩ := aligned.exists_of_mem_right member
    exact varied.right
  · rw [Draft.tree_apply, Draft.tree_apply]
    exact .apply (aligned.map fun _ _ varied => varied.varies)

theorem ofKnown (op : Op) (aligned : Aligned (free op) (pools.Varied free) xs ys) :
    pools.VariedDraft free (.ofKnown op xs) (.ofKnown op ys) :=
  apply op (aligned.map fun _ _ => known)

theorem negation (varied : pools.Varied free a b) :
    pools.VariedDraft free (.negation a) (.negation b) :=
  apply .not (.of_forall₂ (.cons (known varied) .nil))

/-- The operands of a free operator may change places in a draft. -/
theorem reorder {draft : Draft} {drafts others : List Draft}
    (varied : pools.VariedDraft free draft (.apply op drafts)) (isFree : free op)
    (perm : drafts.Perm others) : pools.VariedDraft free draft (.apply op others) := by
  refine ⟨varied.left, Draft.draws_apply.mpr ⟨trivial, fun other member => ?_⟩, ?_⟩
  · exact (Draft.draws_apply.mp varied.right).2 other (perm.mem_iff.mpr member)
  · have varies := varied.varies
    rw [Draft.tree_apply] at varies ⊢
    exact varies.trans (.single (.here isFree (perm.map _)))

end VariedDraft

/-- Two rules propose drafts that vary, or nothing. -/
abbrev VariedProposal (pools : Pools) (free : Op → Prop) : Option Draft → Option Draft → Prop :=
  Option.Rel (pools.VariedDraft free)

end Pools

namespace Rules

open Pools

variable {pools : Pools} {free : Op → Prop} {related : ExprId → ExprId → Prop}
  {a b : ExprId} {xs ys : List ExprId} {op : Op}

section Distinct

/-- Repeated expressions are left out on both sides. -/
theorem distinctAfter_related (matching : pools.Matching free related) {found others : List ExprId}
    {seen otherSeen : Std.HashSet ExprId} (each : List.Forall₂ related xs ys)
    (founds : List.Forall₂ related found others)
    (same : ∀ {a b}, related a b → seen.contains a = otherSeen.contains b) :
    List.Forall₂ related (distinctAfter found seen xs) (distinctAfter others otherSeen ys) := by
  induction each generalizing found others seen otherSeen with
  | nil => exact List.rel_reverse founds
  | cons first _ inductionHypothesis =>
    unfold distinctAfter
    rw [same first]
    split
    · exact inductionHypothesis founds same
    · refine inductionHypothesis (.cons first founds) fun {a b} next => ?_
      have sameName := matching.eq_iff first next
      rw [Std.HashSet.contains_insert, Std.HashSet.contains_insert, same next]
      simp only [BEq.beq, sameName]

theorem distinct_aligned {loose : Prop} (matching : pools.Matching free related)
    (aligned : Aligned loose related xs ys) : Aligned loose related (distinct xs) (distinct ys) := by
  have keeps : ∀ {zs}, List.Forall₂ related xs zs → List.Forall₂ related (distinct xs) (distinct zs) :=
    fun each => distinctAfter_related matching each .nil fun _ => by simp
  obtain ⟨⟨zs, each, perm⟩, inOrder⟩ := aligned
  refine ⟨⟨distinct zs, keeps each, ?_⟩, fun strict => keeps (inOrder strict)⟩
  rw [List.perm_ext_iff_of_nodup (nodup_distinct zs) (nodup_distinct ys)]
  simp [perm.mem_iff]

/-- Nothing is left out of a list if what is kept is a permutation of it. -/
theorem distinct_eq_self_of_perm (perm : (distinct xs).Perm xs) : distinct xs = xs :=
  (distinct_sublist xs).eq_of_length perm.length_eq

theorem complementary_iff {pool : Pool} {operands : List ExprId} :
    complementary pool operands ↔ ∃ e ∈ operands, ∃ inner ∈ operands, pool.negated? e = some inner := by
  simp only [complementary, List.any_eq_true, Option.any_eq_true, Std.HashSet.contains_ofList,
    List.contains_iff_mem]
  grind

/-- A list has an expression together with its negation on both sides or on none. -/
theorem complementary_eq_of_aligned {loose : Prop} (matching : pools.Matching free related)
    (interchange : Op.Interchange free) (aligned : Aligned loose related xs ys) :
    complementary pools.left xs = complementary pools.right ys := by
  rw [Bool.eq_iff_iff, complementary_iff, complementary_iff]
  constructor
  · rintro ⟨e, member, inner, innerMember, negated⟩
    obtain ⟨other, otherMember, first⟩ := aligned.exists_of_mem_left member
    obtain ⟨otherInner, otherInnerMember, second⟩ := aligned.exists_of_mem_left innerMember
    have inners := (matching.matched first).negated? interchange
    rw [negated] at inners
    generalize found : pools.right.negated? other = right at inners
    cases inners with
    | @some _ image third =>
      rw [matching.biUnique.2 third second] at found
      exact ⟨other, otherMember, otherInner, otherInnerMember, found⟩
  · rintro ⟨other, otherMember, otherInner, otherInnerMember, negated⟩
    obtain ⟨e, member, first⟩ := aligned.exists_of_mem_right otherMember
    obtain ⟨inner, innerMember, second⟩ := aligned.exists_of_mem_right otherInnerMember
    have inners := (matching.matched first).negated? interchange
    rw [negated] at inners
    generalize found : pools.left.negated? e = left at inners
    cases inners with
    | @some image _ third =>
      rw [matching.biUnique.1 third second] at found
      exact ⟨e, member, inner, innerMember, found⟩

end Distinct

section Junctions

/-- What is nested in a junction and merged into it is not freer than the junction. -/
theorem free_of_merges (interchange : Op.Interchange free) (isAndOr : op = .and ∨ op = .or)
    {nested : Op} (merged : merges op nested) (isFree : free nested) : free op := by
  rcases isAndOr with rfl | rfl
  · simp only [merges, beq_iff_eq] at merged
    exact merged ▸ isFree
  · simp only [merges, Bool.or_eq_true, beq_iff_eq] at merged
    rcases merged with rfl | rfl
    · exact isFree
    · exact interchange.or_of_clause isFree

/-- Operands contribute aligned parts to a junction. -/
theorem unnest_aligned (matching : pools.Matching free related) (interchange : Op.Interchange free)
    (isAndOr : op = .and ∨ op = .or) (first : related a b) :
    Option.Rel (Aligned (free op) related) (unnest pools.left op a) (unnest pools.right op b) := by
  have stored := (matching.varied first).left
  induction stored using Pool.Has.induction generalizing b with
  | step a node found inductionHypothesis =>
    have matched := matching.matched first
    rw [unnest_eq, unnest_eq, matched.truth?_eq, matched.op?_eq]
    split
    · split
      · exact .some (.of_forall₂ .nil)
      · exact .none
    · split
      · rename_i merged
        have operands : Aligned (free op) related (pools.left.operands a) (pools.right.operands b) := by
          refine matched.operands fun nested isNested => free_of_merges interchange isAndOr ?_
          rw [← matched.op?_eq, Option.mem_def.mp isNested] at merged
          exact merged
        have parts := rel_mapM_of_aligned (operands.imp_of_mem fun operand member other _ =>
          inductionHypothesis operand (Pool.operands_of_node? found ▸ member))
        revert parts
        generalize (pools.left.operands a).mapM (unnest pools.left op) = left,
          (pools.right.operands b).mapM (unnest pools.right op) = right
        rintro (@⟨_, _, parts⟩ | _)
        · exact .some parts.flatten
        · exact .none
      · exact .some (.of_forall₂ (.cons first .nil))

/-- A part that an operand contributes contributes itself. -/
theorem unnest_of_mem {pool : Pool} {e part : ExprId} {parts : List ExprId}
    (unnested : unnest pool op e = some parts) (member : part ∈ parts) :
    unnest pool op part = some [part] := by
  induction index : e.index using Nat.strong_induction_on generalizing e parts with
  | _ size inductionHypothesis =>
    subst index
    have self := unnested
    rw [unnest_eq] at unnested
    split at unnested
    · split at unnested <;> cases unnested
      cases member
    · split at unnested
      · obtain ⟨nested, found, rfl⟩ := Option.map_eq_some_iff.mp unnested
        obtain ⟨some, inNested, inSome⟩ := List.mem_flatten.mp member
        obtain ⟨operand, isOperand, unnested⟩ :=
          exists_of_forall₂_of_mem (mapM_eq_some_iff.mp found).flip inNested
        exact inductionHypothesis _ (Pool.index_lt_of_mem_operands isOperand) unnested inSome rfl
      · cases unnested
        rwa [List.mem_singleton.mp member]

/-- Where what is kept of operands is a permutation of them, they are kept as they
are. -/
theorem kept_eq_of_perm {pool : Pool} {operands : List ExprId} {parts : List (List ExprId)}
    (unnested : operands.mapM (unnest pool op) = some parts)
    (perm : (distinct parts.flatten).Perm operands) : distinct parts.flatten = operands := by
  have settled : operands.mapM (unnest pool op) = some (operands.map fun e => [e]) := by
    rw [mapM_eq_some_iff, List.forall₂_map_right_iff, List.forall₂_same]
    intro e member
    obtain ⟨some, inParts, inSome⟩ :=
      List.mem_flatten.mp (mem_distinct.mp (perm.mem_iff.mpr member))
    obtain ⟨operand, -, contributed⟩ :=
      exists_of_forall₂_of_mem (mapM_eq_some_iff.mp unnested).flip inParts
    exact unnest_of_mem contributed inSome
  obtain rfl : operands.map (fun e => [e]) = parts := Option.some.inj (settled.symm.trans unnested)
  have flat : (operands.map fun e => [e]).flatten = operands := by
    rw [← List.flatMap_def, List.flatMap_singleton']
  rw [flat] at perm ⊢
  exact distinct_eq_self_of_perm perm

/-- The rules for `and` and `or` propose the same on both sides. -/
theorem simplifyJunction_varied (matching : pools.Matching free related)
    (interchange : Op.Interchange free) (isAndOr : op = .and ∨ op = .or)
    (aligned : Aligned (free op) related xs ys) :
    pools.VariedProposal free (simplifyJunction pools.left op xs) (simplifyJunction pools.right op ys) := by
  have flat := rel_mapM_of_aligned
    (aligned.imp fun _ _ => unnest_aligned matching interchange isAndOr)
  unfold simplifyJunction
  generalize unnested : xs.mapM (unnest pools.left op) = left,
    otherUnnested : ys.mapM (unnest pools.right op) = right at flat ⊢
  cases flat with
  | none => exact .some (.truth _)
  | @some parts others flat =>
    have kept := distinct_aligned matching flat.flatten
    have unchanged : distinct parts.flatten = xs ↔ distinct others.flatten = ys := by
      have perm := kept.perm_iff matching.biUnique aligned
      exact ⟨fun same => kept_eq_of_perm otherUnnested (perm.mp (same ▸ .refl _)),
        fun same => kept_eq_of_perm unnested (perm.mpr (same ▸ .refl _))⟩
    simp only [complementary_eq_of_aligned matching interchange kept, unchanged]
    split
    · exact .some (.truth _)
    · have draft := VariedDraft.ofKnown op (kept.imp fun _ _ => matching.varied)
      revert kept draft
      generalize distinct parts.flatten = left, distinct others.flatten = right
      intro kept draft
      match left, right, kept.length_eq with
      | [], [], _ => exact .some (.truth _)
      | [e], [other], _ =>
        obtain ⟨_, same, first⟩ := kept.singleton
        cases same
        exact .some (.known (matching.varied first))
      | _ :: _ :: _, _ :: _ :: _, _ =>
        dsimp only
        split
        · exact .none
        · exact .some draft

/-- So do the rules for `clause`. -/
theorem simplifyClause_varied (matching : pools.Matching free related)
    (interchange : Op.Interchange free) (aligned : Aligned (free .clause) related xs ys) :
    pools.VariedProposal free (simplifyClause pools.left xs) (simplifyClause pools.right ys) := by
  have kept := distinct_aligned matching aligned
  have unchanged : distinct xs = xs ↔ distinct ys = ys := by
    have perm := kept.perm_iff matching.biUnique aligned
    exact ⟨fun same => distinct_eq_self_of_perm (perm.mp (same.symm ▸ .refl _)),
      fun same => distinct_eq_self_of_perm (perm.mpr (same.symm ▸ .refl _))⟩
  simp only [simplifyClause, complementary_eq_of_aligned matching interchange kept, unchanged]
  split
  · exact .some (.truth _)
  · have draft := VariedDraft.ofKnown .clause (kept.imp fun _ _ => matching.varied)
    revert kept draft
    generalize distinct xs = left, distinct ys = right
    intro kept draft
    match left, right, kept.length_eq with
    | [], [], _ | _ :: _ :: _, _ :: _ :: _, _ =>
      dsimp only
      split
      · exact .none
      · exact .some draft
    | [e], [other], _ =>
      obtain ⟨_, same, first⟩ := kept.singleton
      cases same
      exact .some (.known (matching.varied first))

end Junctions

end Rules

end Clausal
