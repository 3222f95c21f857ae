import Mathlib
import Clausal.Proofs.Trees

/-!
# Trees up to the order of operands

`Aligned` relates two lists item by item, up to their order if that does not
matter. `Tree.Varies` relates two trees that are the same up to the order of the
operands of some operators, the free ones; with no free operators it is equality.
Expressions of two pools are varied if their trees are (`Pools.Varied`), and their
nodes then match: all that a rule can see of a node is the same (`Pools.Matched`).
-/

namespace Clausal

section Lists

variable {α β γ δ : Type} {loose : Prop} {related : α → β → Prop} {xs vs : List α} {ys ws : List β}

/-- Two lists are related item by item, up to the order if that does not matter. -/
structure Aligned (loose : Prop) (related : α → β → Prop) (xs : List α) (ys : List β) : Prop where
  reordered : ∃ zs, List.Forall₂ related xs zs ∧ zs.Perm ys
  inOrder : ¬ loose → List.Forall₂ related xs ys

namespace Aligned

theorem of_forall₂ (each : List.Forall₂ related xs ys) : Aligned loose related xs ys :=
  ⟨⟨ys, each, .refl ys⟩, fun _ => each⟩

theorem of_perm {zs : List β} (isLoose : loose) (each : List.Forall₂ related xs zs)
    (perm : zs.Perm ys) : Aligned loose related xs ys :=
  ⟨⟨zs, each, perm⟩, fun strict => absurd isLoose strict⟩

theorem imp_of_mem {other : α → β → Prop} (aligned : Aligned loose related xs ys)
    (implies : ∀ x ∈ xs, ∀ y ∈ ys, related x y → other x y) : Aligned loose other xs ys := by
  have weaken : ∀ {zs}, (∀ y ∈ zs, y ∈ ys) → List.Forall₂ related xs zs → List.Forall₂ other xs zs := by
    intro zs inside each
    have members : List.Forall₂ (fun x y => y ∈ zs ∧ related x y) xs zs :=
      (forall₂_imp_of_mem each.flip fun y member x holds => ⟨member, holds⟩).flip
    exact forall₂_imp_of_mem members fun x member y holds =>
      implies x member y (inside y holds.1) holds.2
  obtain ⟨⟨zs, each, perm⟩, inOrder⟩ := aligned
  exact ⟨⟨zs, weaken (fun _ => perm.mem_iff.mp) each, perm⟩,
    fun strict => weaken (fun _ => id) (inOrder strict)⟩

theorem imp {other : α → β → Prop} (aligned : Aligned loose related xs ys)
    (implies : ∀ x y, related x y → other x y) : Aligned loose other xs ys :=
  aligned.imp_of_mem fun x _ y _ => implies x y

theorem loosen {looser : Prop} (aligned : Aligned loose related xs ys) (implies : loose → looser) :
    Aligned looser related xs ys :=
  ⟨aligned.reordered, fun strict => aligned.inOrder (mt implies strict)⟩

theorem length_eq (aligned : Aligned loose related xs ys) : xs.length = ys.length := by
  obtain ⟨zs, each, perm⟩ := aligned.reordered
  exact each.length_eq.trans perm.length_eq

theorem exists_of_mem_left (aligned : Aligned loose related xs ys) {x : α} (member : x ∈ xs) :
    ∃ y ∈ ys, related x y := by
  obtain ⟨zs, each, perm⟩ := aligned.reordered
  obtain ⟨y, inZs, holds⟩ := exists_of_forall₂_of_mem each member
  exact ⟨y, perm.mem_iff.mp inZs, holds⟩

theorem exists_of_mem_right (aligned : Aligned loose related xs ys) {y : β} (member : y ∈ ys) :
    ∃ x ∈ xs, related x y := by
  obtain ⟨zs, each, perm⟩ := aligned.reordered
  exact exists_of_forall₂_of_mem each.flip (perm.mem_iff.mpr member)

theorem trans {third : β → γ → Prop} {last : α → γ → Prop} {us : List γ}
    (aligned : Aligned loose related xs ys) (other : Aligned loose third ys us)
    (compose : ∀ x y z, related x y → third y z → last x z) : Aligned loose last xs us := by
  have chain : ∀ {as bs cs}, List.Forall₂ related as bs → List.Forall₂ third bs cs →
      List.Forall₂ last as cs := fun first second =>
    forall₂_join first.flip second fun y _ x z left right => compose x y z left right
  obtain ⟨⟨zs, each, perm⟩, inOrder⟩ := aligned
  obtain ⟨⟨ts, otherEach, otherPerm⟩, otherInOrder⟩ := other
  obtain ⟨rs, moved, movedPerm⟩ := List.perm_comp_forall₂ perm otherEach
  exact ⟨⟨rs, chain each moved, movedPerm.trans otherPerm⟩,
    fun strict => chain (inOrder strict) (otherInOrder strict)⟩

theorem append (first : Aligned loose related xs ys) (second : Aligned loose related vs ws) :
    Aligned loose related (xs ++ vs) (ys ++ ws) := by
  obtain ⟨⟨zs, each, perm⟩, inOrder⟩ := first
  obtain ⟨⟨ts, otherEach, otherPerm⟩, otherInOrder⟩ := second
  exact ⟨⟨zs ++ ts, List.rel_append each otherEach, perm.append otherPerm⟩,
    fun strict => List.rel_append (inOrder strict) (otherInOrder strict)⟩

theorem flatten_of_forall₂ {xss : List (List α)} {yss : List (List β)}
    (each : List.Forall₂ (Aligned loose related) xss yss) :
    Aligned loose related xss.flatten yss.flatten := by
  induction each with
  | nil => exact of_forall₂ .nil
  | cons first _ inductionHypothesis => exact first.append inductionHypothesis

theorem flatten {xss : List (List α)} {yss : List (List β)}
    (aligned : Aligned loose (Aligned loose related) xss yss) :
    Aligned loose related xss.flatten yss.flatten := by
  obtain ⟨⟨zss, each, perm⟩, inOrder⟩ := aligned
  obtain ⟨zs, flat, flatPerm⟩ := (flatten_of_forall₂ each).reordered
  exact ⟨⟨zs, flat, flatPerm.trans perm.flatten⟩,
    fun strict => (flatten_of_forall₂ (inOrder strict)).inOrder strict⟩

theorem map {f : α → γ} {g : β → δ} {other : γ → δ → Prop} (aligned : Aligned loose related xs ys)
    (maps : ∀ x y, related x y → other (f x) (g y)) :
    Aligned loose other (xs.map f) (ys.map g) := by
  have mapped : ∀ {zs}, List.Forall₂ related xs zs → List.Forall₂ other (xs.map f) (zs.map g) := by
    intro zs each
    rw [List.forall₂_map_left_iff, List.forall₂_map_right_iff]
    exact each.imp maps
  obtain ⟨⟨zs, each, perm⟩, inOrder⟩ := aligned
  exact ⟨⟨zs.map g, mapped each, perm.map g⟩, fun strict => mapped (inOrder strict)⟩

/-- Items that are related to images are related to what these are images of. -/
theorem of_map_right {f : γ → β} {us : List γ} (aligned : Aligned loose related xs (us.map f)) :
    Aligned loose (fun x u => related x (f u)) xs us := by
  obtain ⟨⟨zs, each, perm⟩, inOrder⟩ := aligned
  have images : List.Forall₂ (fun y u => y = f u) (us.map f) us := by
    rw [List.forall₂_map_left_iff, List.forall₂_same]
    exact fun _ _ => rfl
  obtain ⟨ts, sources, sourcePerm⟩ := List.perm_comp_forall₂ perm images
  refine ⟨⟨ts, ?_, sourcePerm⟩, fun strict => List.forall₂_map_right_iff.mp (inOrder strict)⟩
  exact forall₂_join each.flip sources fun y _ x u holds same => same ▸ holds

theorem of_map_left {f : γ → α} {us : List γ} (aligned : Aligned loose related (us.map f) ys) :
    Aligned loose (fun u y => related (f u) y) us ys := by
  obtain ⟨⟨zs, each, perm⟩, inOrder⟩ := aligned
  exact ⟨⟨zs, List.forall₂_map_left_iff.mp each, perm⟩,
    fun strict => List.forall₂_map_left_iff.mp (inOrder strict)⟩

/-- What is aligned with one item is one item. -/
theorem singleton {x : α} (aligned : Aligned loose related [x] ys) : ∃ y, ys = [y] ∧ related x y := by
  obtain ⟨y, rfl⟩ := List.length_eq_one_iff.mp aligned.length_eq.symm
  obtain ⟨other, member, holds⟩ := aligned.exists_of_mem_left (List.mem_singleton_self x)
  exact ⟨y, rfl, List.mem_singleton.mp member ▸ holds⟩

/-- What is aligned with two items is two items, in one order or the other. -/
theorem pair {a b : α} (aligned : Aligned loose related [a, b] ys) :
    ∃ x y, related a x ∧ related b y ∧ (ys = [x, y] ∨ loose ∧ ys = [y, x]) := by
  by_cases isLoose : loose
  · obtain ⟨zs, each, perm⟩ := aligned.reordered
    obtain ⟨x, y, first, second, rfl⟩ := forall₂_two.mp each
    refine ⟨x, y, first, second, ?_⟩
    exact (List.pair_perm.mp perm).imp id fun swapped => ⟨isLoose, swapped⟩
  · obtain ⟨x, y, first, second, rfl⟩ := forall₂_two.mp (aligned.inOrder isLoose)
    exact ⟨x, y, first, second, .inl rfl⟩

/-- Where related items correspond one to one, aligned lists are permutations of each
other on both sides or on none. -/
theorem perm_iff {other : Prop} (biUnique : Relator.BiUnique related)
    (first : Aligned loose related xs ys) (second : Aligned other related vs ws) :
    xs.Perm vs ↔ ys.Perm ws := by
  obtain ⟨zs, each, perm⟩ := first.reordered
  obtain ⟨ts, otherEach, otherPerm⟩ := second.reordered
  rw [← perm.congr_left ws, ← otherPerm.congr_right zs]
  exact List.rel_perm biUnique each otherEach

end Aligned

/-- Partial functions with related results have related lists of results. -/
theorem rel_mapM {step : α → Option γ} {other : β → Option δ} {results : γ → δ → Prop}
    (each : List.Forall₂ (fun x y => Option.Rel results (step x) (other y)) xs ys) :
    Option.Rel (List.Forall₂ results) (xs.mapM step) (ys.mapM other) := by
  induction each with
  | nil => exact .some .nil
  | @cons x y xs ys first _ inductionHypothesis =>
    rw [List.mapM_cons, List.mapM_cons]
    revert first inductionHypothesis
    generalize step x = left, other y = right, xs.mapM step = leftRest, ys.mapM other = rightRest
    rintro (@⟨_, _, first⟩ | _) (@⟨_, _, rest⟩ | _)
    · exact .some (.cons first rest)
    · exact .none
    · exact .none
    · exact .none

/-- The results of a partial function are in the order of the items. -/
theorem perm_mapM {step : β → Option δ} {others : List β} (perm : ys.Perm others) :
    Option.Rel List.Perm (ys.mapM step) (others.mapM step) := by
  cases found : ys.mapM step with
  | none =>
    obtain ⟨item, member, missing⟩ := exists_of_mapM_eq_none found
    cases otherFound : others.mapM step with
    | none => exact .none
    | some results =>
      obtain ⟨result, -, defined⟩ :=
        exists_of_forall₂_of_mem (mapM_eq_some_iff.mp otherFound) (perm.mem_iff.mp member)
      simp [missing] at defined
  | some results =>
    obtain ⟨reordered, each, otherPerm⟩ :=
      List.perm_comp_forall₂ perm.symm (mapM_eq_some_iff.mp found)
    rw [mapM_eq_some_iff.mpr each]
    exact .some otherPerm.symm

theorem rel_mapM_of_aligned {loose : Prop} {step : α → Option γ} {other : β → Option δ}
    {results : γ → δ → Prop}
    (aligned : Aligned loose (fun x y => Option.Rel results (step x) (other y)) xs ys) :
    Option.Rel (Aligned loose results) (xs.mapM step) (ys.mapM other) := by
  obtain ⟨⟨zs, each, perm⟩, inOrder⟩ := aligned
  have strictly : ¬ loose → Option.Rel (List.Forall₂ results) (xs.mapM step) (ys.mapM other) :=
    fun strict => rel_mapM (inOrder strict)
  have first := rel_mapM each
  have second : Option.Rel List.Perm (zs.mapM other) (ys.mapM other) := perm_mapM perm
  revert first second strictly
  generalize xs.mapM step = left, zs.mapM other = middle, ys.mapM other = right
  rintro strictly (@⟨_, _, first⟩ | _) (@⟨_, _, second⟩ | _)
  · refine .some ⟨⟨_, first, second⟩, fun strict => ?_⟩
    cases strictly strict with
    | some each => exact each
  · exact .none

/-- An entry of one list goes with the entry at the same position of the other. -/
theorem rel_of_entry {index : Nat} {x : α} {y : β} (each : List.Forall₂ related xs ys)
    (left : entry xs index = .ok x) (right : entry ys index = .ok y) : related x y := by
  obtain ⟨other, otherFound, holds⟩ := exists_getElem?_of_forall₂ each (entry_eq_ok_iff.mp left)
  rw [entry_eq_ok_iff, otherFound] at right
  cases right
  exact holds

end Lists

/-- A set of commutative operators whose operands may be listed in any order. It has
no multiplication, since the rows of a product are those of its second factor. With
an operator it has those that rules put in its place. -/
structure Op.Interchange (free : Op → Prop) : Prop where
  commutative : ∀ {op}, free op → op.isCommutative
  not_mul : ∀ {width}, ¬ free (.mul width)
  and_iff_or : free .and ↔ free .or
  or_of_clause : free .clause → free .or
  xor_of_eq : free .eq → free .xor
  of_add : ∀ {width}, free (.add width) → free .and ∧ free .xor

theorem Op.Interchange.not_free {free : Op → Prop} {op : Op} (interchange : Op.Interchange free)
    (ordered : op.isCommutative = false) : ¬ free op := by
  intro isFree
  rw [interchange.commutative isFree] at ordered
  cases ordered

/-- No operator is free. -/
theorem Op.interchange_none : Op.Interchange fun _ => False where
  commutative := False.elim
  not_mul := id
  and_iff_or := .rfl
  or_of_clause := id
  xor_of_eq := id
  of_add := False.elim

namespace Tree

variable {free : Op → Prop} {s t u : Tree} {op : Op} {xs ys : List Tree}

/-- The operands of a free operator somewhere in a tree change places. -/
inductive Exchanges (free : Op → Prop) : Tree → Tree → Prop where
  | here {op : Op} {xs ys : List Tree} (isFree : free op) (perm : xs.Perm ys) :
      Exchanges free (.apply op xs) (.apply op ys)
  | inside {op : Op} {front rest : List Tree} {x y : Tree} (step : Exchanges free x y) :
      Exchanges free (.apply op (front ++ x :: rest)) (.apply op (front ++ y :: rest))

/-- Two trees are the same up to the order of the operands of free operators. -/
def Varies (free : Op → Prop) : Tree → Tree → Prop :=
  Relation.ReflTransGen (Exchanges free)

theorem Exchanges.symm (step : Exchanges free s t) : Exchanges free t s := by
  induction step with
  | here isFree perm => exact .here isFree perm.symm
  | inside _ inductionHypothesis => exact .inside inductionHypothesis

namespace Varies

theorem refl (tree : Tree) : Varies free tree tree :=
  Relation.ReflTransGen.refl

theorem trans (first : Varies free s t) (second : Varies free t u) : Varies free s u :=
  Relation.ReflTransGen.trans first second

theorem symm (varies : Varies free s t) : Varies free t s := by
  induction varies with
  | refl => exact refl s
  | tail _ step inductionHypothesis => exact .head step.symm inductionHypothesis

theorem inside {front rest : List Tree} (varies : Varies free s t) :
    Varies free (.apply op (front ++ s :: rest)) (.apply op (front ++ t :: rest)) := by
  induction varies with
  | refl => exact refl _
  | tail _ step inductionHypothesis => exact .tail inductionHypothesis (.inside step)

/-- Operands vary one after the other. -/
theorem apply_of_forall₂ (each : List.Forall₂ (Varies free) xs ys) (front : List Tree) :
    Varies free (.apply op (front ++ xs)) (.apply op (front ++ ys)) := by
  induction each generalizing front with
  | nil => exact refl _
  | @cons x y xs ys first _ inductionHypothesis =>
    have rest := inductionHypothesis (front ++ [y])
    rw [List.append_assoc, List.append_assoc] at rest
    exact first.inside.trans rest

/-- Applications vary with their operands, in any order if the operator is free. -/
theorem apply (aligned : Aligned (free op) (Varies free) xs ys) :
    Varies free (.apply op xs) (.apply op ys) := by
  by_cases isFree : free op
  · obtain ⟨zs, each, perm⟩ := aligned.reordered
    exact (apply_of_forall₂ each []).trans (.single (.here isFree perm))
  · exact apply_of_forall₂ (aligned.inOrder isFree) []

/-- A tree that varies from an application is one of the same operator. -/
theorem exists_of_apply (varies : Varies free (.apply op xs) t) :
    ∃ ys, t = .apply op ys ∧ Aligned (free op) (Varies free) xs ys := by
  have self : ∀ trees, Aligned (free op) (Varies free) trees trees := fun trees =>
    .of_forall₂ (List.forall₂_same.mpr fun tree _ => refl tree)
  induction varies with
  | refl => exact ⟨xs, rfl, self xs⟩
  | tail _ step inductionHypothesis =>
    obtain ⟨ys, rfl, aligned⟩ := inductionHypothesis
    generalize same : Tree.apply op ys = tree at step
    cases step with
    | @here other vs ws isFree perm =>
      cases same
      refine ⟨ws, rfl, aligned.trans ?_ fun _ _ _ => trans⟩
      exact .of_perm isFree (List.forall₂_same.mpr fun tree _ => refl tree) perm
    | @inside other front rest x y step =>
      cases same
      refine ⟨_, rfl, aligned.trans ((self front).append (.of_forall₂ ?_)) fun _ _ _ => trans⟩
      exact .cons (.single step) (List.forall₂_same.mpr fun tree _ => refl tree)

theorem eq_of_var {ty : Ty} {name : String} (varies : Varies free (.var ty name) t) :
    t = .var ty name := by
  induction varies with
  | refl => rfl
  | tail _ step inductionHypothesis =>
    subst inductionHypothesis
    cases step

theorem eq_of_const {ty : Ty} {value : Value} (varies : Varies free (.const ty value) t) :
    t = .const ty value := by
  induction varies with
  | refl => rfl
  | tail _ step inductionHypothesis =>
    subst inductionHypothesis
    cases step

/-- Without free operators, nothing varies. -/
theorem eq (varies : Varies free s t) (none : ∀ op, ¬ free op) : s = t := by
  have still : ∀ {s t}, ¬ Exchanges free s t := by
    intro s t step
    induction step with
    | here isFree _ => exact none _ isFree
    | inside _ inductionHypothesis => exact inductionHypothesis
  induction varies with
  | refl => rfl
  | tail _ step => exact absurd step still

end Varies

end Tree

/-- The result of a commutative operator has the same type for all operands. -/
theorem Op.Types.ty_eq {op : Op} {types others : List Ty} {ty other : Ty} (typed : op.Types types ty)
    (otherTyped : op.Types others other) (commutative : op.isCommutative) : ty = other := by
  cases typed <;> cases otherTyped <;> first | rfl | cases commutative

namespace Pools

variable {pools before after : Pools} {free : Op → Prop} {related : ExprId → ExprId → Prop}
  {a b : ExprId}

/-- An expression of the left pool and one of the right pool unfold to trees that
vary. -/
structure Varied (pools : Pools) (free : Op → Prop) (a b : ExprId) : Prop where
  left : pools.left.Has a
  right : pools.right.Has b
  varies : Tree.Varies free (pools.left.tree a) (pools.right.tree b)

/-- Two nodes are the same up to the names of their operands, and up to their order
if the operator is free. -/
inductive Matched (pools : Pools) (free : Op → Prop) (related : ExprId → ExprId → Prop)
    (a b : ExprId) : Prop where
  | var {ty : Ty} {name : String} (left : pools.left.node? a = some ⟨ty, .var name⟩)
      (right : pools.right.node? b = some ⟨ty, .var name⟩)
  | const {ty : Ty} {value : Value} (left : pools.left.node? a = some ⟨ty, .const value⟩)
      (right : pools.right.node? b = some ⟨ty, .const value⟩)
  | apply {ty : Ty} {op : Op} {xs ys : List ExprId}
      (left : pools.left.node? a = some ⟨ty, .apply op xs⟩)
      (right : pools.right.node? b = some ⟨ty, .apply op ys⟩)
      (aligned : Aligned (free op) related xs ys)

namespace Matched

variable (matched : pools.Matched free related a b)
include matched

theorem hasTy_iff {ty : Ty} : pools.left.HasTy a ty ↔ pools.right.HasTy b ty := by
  cases matched with
  | var left right | const left right | apply left right => simp [Pool.HasTy, left, right]

theorem op?_eq : pools.left.op? a = pools.right.op? b := by
  cases matched with
  | var left right | const left right | apply left right => simp [Pool.op?, left, right, Node.op?]

theorem constant?_eq : pools.left.constant? a = pools.right.constant? b := by
  cases matched with
  | var left right | const left right | apply left right => simp [Pool.constant?, left, right]

theorem truth?_eq : pools.left.truth? a = pools.right.truth? b := by
  cases matched with
  | var left right | apply left right => simp [Pool.truth?, left, right]
  | const left right => simp only [Pool.truth?, left, right]

/-- The operands of matched nodes are aligned, up to their order if the operator is
free. -/
theorem operands {loose : Prop} (isLoose : ∀ op ∈ pools.left.op? a, free op → loose) :
    Aligned loose related (pools.left.operands a) (pools.right.operands b) := by
  cases matched with
  | var left right | const left right =>
    rw [Pool.operands_of_node? left, Pool.operands_of_node? right]
    exact .of_forall₂ .nil
  | apply left right aligned =>
    rw [Pool.operands_of_node? left, Pool.operands_of_node? right]
    exact aligned.loosen (isLoose _ (Pool.op?_of_apply left))

/-- The operands of an operator that is not free are related one by one. -/
theorem operands_inOrder {op : Op} (strict : ¬ free op) (isOp : pools.left.op? a = some op) :
    List.Forall₂ related (pools.left.operands a) (pools.right.operands b) := by
  refine (matched.operands fun other found isFree => ?_).inOrder not_false
  rw [Option.mem_def, isOp] at found
  cases found
  exact strict isFree

theorem negated? (interchange : Op.Interchange free) :
    Option.Rel related (pools.left.negated? a) (pools.right.negated? b) := by
  cases matched with
  | var left right | const left right =>
    simp only [Pool.negated?, left, right]
    exact .none
  | @apply ty op xs ys left right aligned =>
    by_cases isNot : op = .not
    · subst isNot
      simp only [Pool.negated?, left, right]
      have strict : ¬ free .not := interchange.not_free rfl
      cases aligned.inOrder strict with
      | nil => exact .none
      | cons first _ => exact .some first
    · simp only [Pool.negated?, left, right]
      split
      · rename_i same
        cases same
        exact absurd rfl isNot
      · split
        · rename_i same
          cases same
          exact absurd rfl isNot
        · exact .none

end Matched

namespace Varied

theorem mono (extension : before.Extends after) (varied : before.Varied free a b) :
    after.Varied free a b := by
  refine ⟨extension.left.has varied.left, extension.right.has varied.right, ?_⟩
  rw [extension.left.tree_eq varied.left, extension.right.tree_eq varied.right]
  exact varied.varies

/-- Varied expressions have matched nodes. The types of applications are not in the
tree; they follow from those of the operands, or from the operator if it is free. -/
theorem matched (commutative : ∀ {op}, free op → op.isCommutative) (varied : pools.Varied free a b) :
    pools.Matched free (pools.Varied free) a b := by
  obtain ⟨left, right, varies⟩ := varied
  induction left using Pool.Has.induction generalizing b with
  | step a node found inductionHypothesis =>
    obtain ⟨other, otherFound⟩ := Pool.has_iff.mp right
    obtain ⟨ty, form⟩ := node
    obtain ⟨otherTy, otherForm⟩ := other
    rw [Pool.tree_of_node? found, Pool.tree_of_node? otherFound] at varies
    cases form with
    | var name =>
      have same := varies.eq_of_var
      cases otherForm <;> cases same
      exact .var found otherFound
    | const value =>
      have same := varies.eq_of_const
      cases otherForm <;> cases same
      exact .const found otherFound
    | apply op xs =>
      obtain ⟨trees, same, aligned⟩ := varies.exists_of_apply
      cases otherForm <;> cases same
      rename_i ys
      have each : Aligned (free op) (pools.Varied free) xs ys :=
        aligned.of_map_left.of_map_right.imp_of_mem fun x member y otherMember varies =>
          ⟨Pool.has_of_mem_operands found member, Pool.has_of_mem_operands otherFound otherMember, varies⟩
      obtain ⟨types, hasTys, operator⟩ := (pools.leftTyped.fits found).typed
      obtain ⟨otherTypes, otherHasTys, otherOperator⟩ := (pools.rightTyped.fits otherFound).typed
      obtain rfl : ty = otherTy := by
        by_cases isFree : free op
        · exact operator.ty_eq otherOperator (commutative isFree)
        · have sameTypes : List.Forall₂ pools.right.HasTy ys types := by
            refine forall₂_join (each.inOrder isFree) hasTys fun x member y ty varied hasTy => ?_
            exact (inductionHypothesis x member varied.right varied.varies).hasTy_iff.mp hasTy
          obtain rfl : types = otherTypes := by
            rw [← List.forall₂_eq_eq_eq]
            exact forall₂_join sameTypes otherHasTys fun _ _ _ _ => Pool.HasTy.unique
          exact operator.unique otherOperator
      exact .apply found otherFound each

/-- Applications vary if their operands do, in any order if the operator is free. -/
theorem of_apply {ty otherTy : Ty} {op : Op} {xs ys : List ExprId}
    (left : pools.left.node? a = some ⟨ty, .apply op xs⟩)
    (right : pools.right.node? b = some ⟨otherTy, .apply op ys⟩)
    (aligned : Aligned (free op) (pools.Varied free) xs ys) : pools.Varied free a b := by
  refine ⟨Pool.has_iff.mpr ⟨_, left⟩, Pool.has_iff.mpr ⟨_, right⟩, ?_⟩
  rw [Pool.tree_apply left, Pool.tree_apply right]
  exact .apply (aligned.map fun _ _ varied => varied.varies)

end Varied

theorem Alike.varied (alike : pools.Alike a b) : pools.Varied free a b :=
  ⟨alike.left, alike.right, alike.tree_eq ▸ .refl _⟩

/-- A relation between expressions of the two pools that rules can go by: it is one
to one, and related expressions are varied and have matched nodes. -/
structure Matching (pools : Pools) (free : Op → Prop) (related : ExprId → ExprId → Prop) : Prop where
  biUnique : Relator.BiUnique related
  varied : ∀ {a b}, related a b → pools.Varied free a b
  matched : ∀ {a b}, related a b → pools.Matched free related a b

/-- Alike expressions are matching without free operators. -/
theorem matching_alike (pools : Pools) : pools.Matching (fun _ => False) pools.Alike where
  biUnique := pools.biUnique_alike
  varied := Alike.varied
  matched := fun alike => by
    cases alike.node with
    | var left right => exact .var left right
    | const left right => exact .const left right
    | apply left right each => exact .apply left right (.of_forall₂ each)

theorem Matching.eq_iff {c d : ExprId} (matching : pools.Matching free related) (first : related a b)
    (second : related c d) : a = c ↔ b = d :=
  Relator.rel_eq matching.biUnique first second

end Pools

end Clausal
