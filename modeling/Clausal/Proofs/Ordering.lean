import Mathlib
import Clausal.Rules.Canonical
import Clausal.Proofs.Trees

/-!
# The order of expressions

Expressions are sorted by the structure of their trees. `Tree.compare` is that
order, a total preorder of trees; `Pool.compare_eq_compare_tree` says that it is
how stored expressions are compared, so the order does not depend on where they
are stored. Where the names of variables determine their types, as they do in a
well-typed pool, only equal trees have the same place (`Tree.eq_of_compare`).

An order of nested data is built along the data. `Ordered` has the laws of a
comparison for one item on the left, so that they can be proved by induction on
the item.
-/

namespace Clausal

/-- The laws of a comparison, for one item on the left. -/
structure Ordered {α : Type} (compare : α → α → Ordering) (a : α) : Prop where
  swap : ∀ b, compare a b = (compare b a).swap
  trans : ∀ b c, compare a b ≠ .gt → compare b c ≠ .gt →
    compare a c = (compare a b).then (compare b c)

section Laws

variable {α β γ : Type} {compare : α → α → Ordering} {a : α} {xs ys : List α}

theorem ordered_of_transCmp (compare : α → α → Ordering) [Std.TransCmp compare] (a : α) :
    Ordered compare a := by
  refine ⟨fun b => Std.OrientedCmp.eq_swap, fun b c first second => ?_⟩
  cases left : compare a b <;> cases right : compare b c <;> simp_all only [ne_eq, not_true_eq_false,
    reduceCtorEq, not_false_eq_true, Ordering.then]
  · exact Std.TransCmp.lt_trans left right
  · exact Std.TransCmp.lt_of_lt_of_eq left right
  · exact Std.TransCmp.lt_of_eq_of_lt left right
  · exact Std.TransCmp.eq_trans left right

theorem transCmp_of_ordered (ordered : ∀ a, Ordered compare a) : Std.TransCmp compare where
  eq_swap := (ordered _).swap _
  isLE_trans {a b c} first second := by
    have composed := (ordered a).trans b c (Ordering.isLE_iff_ne_gt.mp first)
      (Ordering.isLE_iff_ne_gt.mp second)
    rw [composed]
    cases left : compare a b <;> cases right : compare b c <;> simp_all

theorem then_lt {order : Ordering} (notAbove : order ≠ .gt) : order.then .lt = .lt := by
  cases order <;> simp_all

theorem Ordered.refl (ordered : Ordered compare a) : compare a a = .eq := by
  have swapped := ordered.swap a
  cases same : compare a a <;> simp_all

/-- Lists are ordered item by item. -/
theorem Ordered.compareLists (each : ∀ x ∈ xs, Ordered compare x) :
    Ordered (compareLists compare) xs := by
  induction xs with
  | nil =>
    refine ⟨fun ys => by cases ys <;> rfl, fun ys zs first second => ?_⟩
    cases ys <;> cases zs <;> simp_all [Clausal.compareLists]
  | cons x xs inductionHypothesis =>
    rw [List.forall_mem_cons] at each
    have rest := inductionHypothesis each.2
    constructor
    · intro ys
      cases ys with
      | nil => rfl
      | cons y ys =>
        simp only [Clausal.compareLists, Ordering.swap_then, ← each.1.swap y, ← rest.swap ys]
    · intro ys zs first second
      cases ys with
      | nil => simp [Clausal.compareLists] at first
      | cons y ys =>
        cases zs with
        | nil => simp [Clausal.compareLists] at second
        | cons z zs =>
          simp only [Clausal.compareLists] at first second ⊢
          have head := each.1.trans y z
          have tail := rest.trans ys zs
          cases left : compare x y <;> cases right : compare y z <;> simp_all [then_lt]

/-- Pairs are ordered by their first parts, and then by their second parts. -/
theorem Ordered.lex {second : β → β → Ordering} {b : β} (first : Ordered compare a)
    (last : Ordered second b) :
    Ordered (fun x y : α × β => (compare x.1 y.1).then (second x.2 y.2)) (a, b) := by
  refine ⟨fun y => ?_, fun y z notAbove further => ?_⟩
  · rw [Ordering.swap_then, ← first.swap, ← last.swap]
  · have head := first.trans y.1 z.1
    have tail := last.trans y.2 z.2
    cases left : compare a y.1 <;> cases right : compare y.1 z.1 <;> simp_all [then_lt]

/-- Items of different ranks are ordered by rank, and so only those of one rank need
to be compared further. -/
theorem Ordered.of_rank (rank : α → Nat)
    (apart : ∀ b c, rank b ≠ rank c → compare b c = Ord.compare (rank b) (rank c))
    (swap : ∀ b, rank b = rank a → compare a b = (compare b a).swap)
    (trans : ∀ b c, rank b = rank a → rank c = rank a → compare a b ≠ .gt → compare b c ≠ .gt →
      compare a c = (compare a b).then (compare b c)) : Ordered compare a := by
  have below : ∀ {b c}, rank b ≠ rank c → compare b c ≠ .gt → rank b < rank c := by
    intro b c differ notAbove
    rw [apart b c differ, Nat.compare_ne_gt] at notAbove
    omega
  have before : ∀ {b c}, rank b < rank c → compare b c = .lt := by
    intro b c less
    rw [apart b c less.ne, Nat.compare_eq_lt]
    exact less
  refine ⟨fun b => ?_, fun b c first second => ?_⟩
  · by_cases same : rank b = rank a
    · exact swap b same
    · rw [apart a b (Ne.symm same), apart b a same, Nat.compare_swap]
  · by_cases same : rank b = rank a
    · by_cases also : rank c = rank a
      · exact trans b c same also first second
      · have less := below (fun equal => also (equal.symm.trans same)) second
        rw [before less, before (same ▸ less), then_lt first]
    · have less := below (Ne.symm same) first
      have notAbove : rank b ≤ rank c := by
        by_cases equal : rank b = rank c
        · exact equal.le
        · exact (below equal second).le
      rw [before less, before (less.trans_le notAbove)]
      rfl

theorem compareLists_congr {first : α → β → Ordering} {second : α → β → Ordering} {ys : List β}
    (same : ∀ x ∈ xs, ∀ y ∈ ys, first x y = second x y) :
    compareLists first xs ys = compareLists second xs ys := by
  induction xs generalizing ys with
  | nil => cases ys <;> rfl
  | cons x xs inductionHypothesis =>
    cases ys with
    | nil => rfl
    | cons y ys =>
      rw [compareLists, compareLists, same x List.mem_cons_self y List.mem_cons_self,
        inductionHypothesis fun other member third thirdMember =>
          same other (List.mem_cons_of_mem x member) third (List.mem_cons_of_mem y thirdMember)]

theorem compareLists_map {δ : Type} {compare : γ → δ → Ordering} {f : α → γ} {g : β → δ} {ys : List β} :
    compareLists compare (xs.map f) (ys.map g) = compareLists (fun x y => compare (f x) (g y)) xs ys := by
  induction xs generalizing ys with
  | nil => cases ys <;> rfl
  | cons x xs inductionHypothesis =>
    cases ys with
    | nil => rfl
    | cons y ys => simp only [List.map_cons, compareLists, inductionHypothesis]

theorem compareLists_attach {compare : α → β → Ordering} {ys : List β} :
    compareLists (fun (x : { x // x ∈ xs }) y => compare x.1 y) xs.attach ys =
      compareLists compare xs ys := by
  conv_rhs => rw [← List.attach_map_subtype_val xs, ← List.map_id ys, compareLists_map]
  rfl

/-- Lists that have the same place have items that have. -/
theorem forall₂_of_compareLists (same : compareLists compare xs ys = .eq) :
    List.Forall₂ (fun x y => compare x y = .eq) xs ys := by
  induction xs generalizing ys with
  | nil =>
    cases ys with
    | nil => exact .nil
    | cons y ys => simp [compareLists] at same
  | cons x xs inductionHypothesis =>
    cases ys with
    | nil => simp [compareLists] at same
    | cons y ys =>
      obtain ⟨head, tail⟩ := Ordering.then_eq_eq.mp same
      exact .cons head (inductionHypothesis tail)

end Laws

namespace Ty

theorem compareList_eq_compareLists (xs ys : List Ty) : compareList xs ys = compareLists compare xs ys := by
  induction xs generalizing ys with
  | nil => cases ys <;> rfl
  | cons x xs inductionHypothesis =>
    cases ys with
    | nil => rfl
    | cons y ys => rw [compareList, compareLists, inductionHypothesis]

/-- Booleans come before words, words before tuples. -/
def rank : Ty → Nat
  | .bool => 0
  | .uint _ => 1
  | .tuple _ => 2

theorem compare_of_rank_ne (a b : Ty) (differ : a.rank ≠ b.rank) :
    compare a b = Ord.compare a.rank b.rank := by
  cases a <;> cases b <;> first | rfl | exact absurd rfl differ

theorem ordered (a : Ty) : Ordered compare a := by
  cases a with
  | bool =>
    refine .of_rank rank compare_of_rank_ne (fun b same => ?_) fun b c same also _ _ => ?_
    · cases b <;> cases same
      rfl
    · cases b <;> cases same
      cases c <;> cases also
      rfl
  | uint width =>
    have numbers := ordered_of_transCmp (Ord.compare : Nat → Nat → Ordering) width
    refine .of_rank rank compare_of_rank_ne (fun b same => ?_) fun b c same also => ?_
    · cases b <;> cases same
      exact numbers.swap _
    · cases b <;> cases same
      cases c <;> cases also
      exact numbers.trans _ _
  | tuple fields =>
    have lists : Ordered compareList fields := by
      rw [funext₂ compareList_eq_compareLists]
      exact .compareLists fun field member => ordered field
    refine .of_rank rank compare_of_rank_ne (fun b same => ?_) fun b c same also => ?_
    · cases b <;> cases same
      exact lists.swap _
    · cases b <;> cases same
      cases c <;> cases also
      exact lists.trans _ _

theorem eq_of_compare {a b : Ty} (same : compare a b = .eq) : a = b := by
  cases a <;> cases b <;> simp only [compare, reduceCtorEq] at same
  case bool.bool => rfl
  case uint.uint => rw [Std.LawfulEqCmp.eq_of_compare same]
  case tuple.tuple xs ys =>
    rw [compareList_eq_compareLists] at same
    have each := forall₂_imp_of_mem (forall₂_of_compareLists same) fun x member y => eq_of_compare
    rw [List.forall₂_eq_eq_eq] at each
    rw [each]

end Ty

namespace Value

theorem compareList_eq_compareLists (xs ys : List Value) :
    compareList xs ys = compareLists compare xs ys := by
  induction xs generalizing ys with
  | nil => cases ys <;> rfl
  | cons x xs inductionHypothesis =>
    cases ys with
    | nil => rfl
    | cons y ys => rw [compareList, compareLists, inductionHypothesis]

/-- Booleans come before words, words before tuples. -/
def rank : Value → Nat
  | .bool _ => 0
  | .uint _ => 1
  | .tuple _ => 2

theorem compare_of_rank_ne (a b : Value) (differ : a.rank ≠ b.rank) :
    compare a b = Ord.compare a.rank b.rank := by
  cases a <;> cases b <;> first | rfl | exact absurd rfl differ

theorem ordered (a : Value) : Ordered compare a := by
  cases a with
  | bool truth =>
    have truths := ordered_of_transCmp (Ord.compare : Bool → Bool → Ordering) truth
    refine .of_rank rank compare_of_rank_ne (fun b same => ?_) fun b c same also => ?_
    · cases b <;> cases same
      exact truths.swap _
    · cases b <;> cases same
      cases c <;> cases also
      exact truths.trans _ _
  | uint number =>
    have numbers := ordered_of_transCmp (Ord.compare : Nat → Nat → Ordering) number
    refine .of_rank rank compare_of_rank_ne (fun b same => ?_) fun b c same also => ?_
    · cases b <;> cases same
      exact numbers.swap _
    · cases b <;> cases same
      cases c <;> cases also
      exact numbers.trans _ _
  | tuple fields =>
    have lists : Ordered compareList fields := by
      rw [funext₂ compareList_eq_compareLists]
      exact .compareLists fun field member => ordered field
    refine .of_rank rank compare_of_rank_ne (fun b same => ?_) fun b c same also => ?_
    · cases b <;> cases same
      exact lists.swap _
    · cases b <;> cases same
      cases c <;> cases also
      exact lists.trans _ _

theorem eq_of_compare {a b : Value} (same : compare a b = .eq) : a = b := by
  cases a <;> cases b <;> simp only [compare, reduceCtorEq] at same
  case bool.bool | uint.uint => rw [Std.LawfulEqCmp.eq_of_compare same]
  case tuple.tuple xs ys =>
    rw [compareList_eq_compareLists] at same
    have each := forall₂_imp_of_mem (forall₂_of_compareLists same) fun x member y => eq_of_compare
    rw [List.forall₂_eq_eq_eq] at each
    rw [each]

end Value

namespace Op

instance instTransCmpCompare : Std.TransCmp compare :=
  inferInstanceAs (Std.TransCmp (compareLex (compareOn tag) (compareOn fun op => op.parameter?.getD 0)))

theorem eq_of_compare {f g : Op} (same : compare f g = .eq) : f = g := by
  obtain ⟨tags, parameters⟩ := Ordering.then_eq_eq.mp same
  rw [Nat.compare_eq_eq] at tags parameters
  cases f <;> cases g <;> simp_all [tag, parameter?]

end Op

namespace Tree

/-- Constants come before variables, variables before applications. -/
def rank : Tree → Nat
  | .const _ _ => 0
  | .var _ _ => 1
  | .apply _ _ => 2

/-- The structural order of trees. Variables are compared by name alone. -/
def compare (left right : Tree) : Ordering :=
  match left, right with
  | .const s x, .const t y => (Ord.compare s t).then (Ord.compare x y)
  | .var _ x, .var _ y => Ord.compare x y
  | .apply f xs, .apply g ys =>
    (Ord.compare f g).then (compareLists (fun (x : { x // x ∈ xs }) y => compare x.1 y) xs.attach ys)
  | s, t => Ord.compare s.rank t.rank
termination_by left
decreasing_by
  have smaller := List.sizeOf_lt_of_mem x.2
  simp only [Tree.apply.sizeOf_spec]
  omega

theorem compare_apply {f g : Op} {xs ys : List Tree} :
    compare (.apply f xs) (.apply g ys) = (Ord.compare f g).then (compareLists compare xs ys) := by
  rw [compare, compareLists_attach]

theorem compare_of_rank_ne (a b : Tree) (differ : a.rank ≠ b.rank) :
    compare a b = Ord.compare a.rank b.rank := by
  cases a <;> cases b <;> first | exact absurd rfl differ | simp [compare]

theorem ordered (a : Tree) : Ordered compare a := by
  cases a with
  | const ty value =>
    have pairs := (Ty.ordered ty).lex (Value.ordered value)
    refine .of_rank rank compare_of_rank_ne (fun b same => ?_) fun b c same also => ?_
    · cases b <;> cases same
      rw [compare, compare]
      exact pairs.swap (_, _)
    · cases b <;> cases same
      cases c <;> cases also
      rw [compare, compare, compare]
      exact pairs.trans (_, _) (_, _)
  | var ty name =>
    have names := ordered_of_transCmp (Ord.compare : String → String → Ordering) name
    refine .of_rank rank compare_of_rank_ne (fun b same => ?_) fun b c same also => ?_
    · cases b <;> cases same
      rw [compare, compare]
      exact names.swap _
    · cases b <;> cases same
      cases c <;> cases also
      rw [compare, compare, compare]
      exact names.trans _ _
  | apply op operands =>
    have lists : Ordered (compareLists compare) operands :=
      .compareLists fun operand member => ordered operand
    have whole := (ordered_of_transCmp Op.compare op).lex lists
    refine .of_rank rank compare_of_rank_ne (fun b same => ?_) fun b c same also => ?_
    · cases b <;> cases same
      rw [compare_apply, compare_apply]
      exact whole.swap (_, _)
    · cases b <;> cases same
      cases c <;> cases also
      rw [compare_apply, compare_apply, compare_apply]
      exact whole.trans (_, _) (_, _)

instance instTransCmpCompare : Std.TransCmp compare := transCmp_of_ordered ordered

/-- The variables in a tree have the types that their names are declared with. -/
inductive Declared (types : String → Ty) : Tree → Prop where
  | var {name : String} : Declared types (.var (types name) name)
  | const {ty : Ty} {value : Value} : Declared types (.const ty value)
  | apply {op : Op} {operands : List Tree} (each : ∀ operand ∈ operands, Declared types operand) :
      Declared types (.apply op operands)

variable {types : String → Ty} {s t : Tree} {trees others : List Tree}

theorem rank_eq_of_compare (same : s.compare t = .eq) : s.rank = t.rank := by
  by_contra differ
  rw [compare_of_rank_ne s t differ, Nat.compare_eq_eq] at same
  exact differ same

/-- Only equal trees have the same place in the order, if the names of variables
determine their types. -/
theorem eq_of_compare (left : s.Declared types) (right : t.Declared types)
    (same : s.compare t = .eq) : s = t := by
  induction left generalizing t with
  | var =>
    cases right <;> cases rank_eq_of_compare same
    rw [compare] at same
    rw [Std.LawfulEqCmp.eq_of_compare same]
  | const =>
    cases right <;> cases rank_eq_of_compare same
    rw [compare, Ordering.then_eq_eq] at same
    rw [Ty.eq_of_compare same.1, Value.eq_of_compare same.2]
  | @apply op operands _ inductionHypothesis =>
    cases right with
    | var | const => cases rank_eq_of_compare same
    | apply declared =>
      rw [compare_apply, Ordering.then_eq_eq] at same
      have declaredToo := (forall₂_imp_of_mem (forall₂_of_compareLists same.2).flip
        fun other member operand same => And.intro (declared other member) same).flip
      have each := forall₂_imp_of_mem declaredToo fun operand member other both =>
        inductionHypothesis operand member both.1 both.2
      rw [List.forall₂_eq_eq_eq] at each
      rw [Op.eq_of_compare same.1, each]

/-- Trees in structural order. -/
def sorted (trees : List Tree) : List Tree :=
  trees.mergeSort fun s t => (s.compare t).isLE

theorem pairwise_sorted (trees : List Tree) :
    (sorted trees).Pairwise fun s t => (s.compare t).isLE := by
  refine List.pairwise_mergeSort (fun _ _ _ => Std.TransCmp.isLE_trans) (fun s t => ?_) trees
  rw [(Tree.ordered s).swap t]
  cases t.compare s <;> rfl

/-- The order in which trees are given does not matter once they are sorted. -/
theorem sorted_eq_of_perm (declared : ∀ tree ∈ trees, tree.Declared types) (perm : trees.Perm others) :
    sorted trees = sorted others := by
  have sortedPerm : (sorted trees).Perm (sorted others) :=
    (List.mergeSort_perm trees _).trans (perm.trans (List.mergeSort_perm others _).symm)
  refine sortedPerm.eq_of_pairwise (fun s t left right first second => ?_) (pairwise_sorted trees)
    (pairwise_sorted others)
  have leftDeclared := declared s (List.mem_mergeSort.mp left)
  have rightDeclared := declared t (perm.mem_iff.mpr (List.mem_mergeSort.mp right))
  refine eq_of_compare leftDeclared rightDeclared ?_
  rw [(Tree.ordered t).swap s] at second
  cases order : s.compare t <;> simp_all

end Tree

namespace Pool

variable {pool : Pool} {a b : ExprId}

/-- The tree of a node has the rank of the node. -/
theorem rank_tree (node : Node) (operands : List Tree) : (node.tree operands).rank = node.form.rank := by
  obtain ⟨ty, form⟩ := node
  cases form <;> rfl

/-- Stored expressions are compared as their trees are. -/
theorem compare_eq_compare_tree (left : pool.Has a) (right : pool.Has b) :
    pool.compare a b = (pool.tree a).compare (pool.tree b) := by
  induction left using Has.induction generalizing b with
  | step a node found inductionHypothesis =>
    rw [compare]
    split_ifs with same
    · subst same
      exact (Tree.ordered _).refl.symm
    · obtain ⟨other, otherFound⟩ := has_iff.mp right
      rw [tree_of_node? found, tree_of_node? otherFound]
      split
      · rename_i first second
        cases found.symm.trans first
        cases otherFound.symm.trans second
        rw [Node.tree, Node.tree, Tree.compare]
      · rename_i first second
        cases found.symm.trans first
        cases otherFound.symm.trans second
        rw [Node.tree, Node.tree, Tree.compare]
      · rename_i first second
        cases found.symm.trans first
        cases otherFound.symm.trans second
        rw [compareLists_attach, Node.tree, Node.tree, Tree.compare_apply, compareLists_map]
        refine congrArg _ (compareLists_congr fun x member y otherMember => ?_)
        exact inductionHypothesis x member (has_of_mem_operands otherFound otherMember)
      · rename_i notConst notVar notApply first second
        cases found.symm.trans first
        cases otherFound.symm.trans second
        obtain ⟨ty, form⟩ := node
        obtain ⟨otherTy, otherForm⟩ := other
        rw [Tree.compare_of_rank_ne, rank_tree, rank_tree]
        rw [rank_tree, rank_tree]
        cases form <;> cases otherForm <;> first
          | exact (notConst _ _ _ _ rfl rfl).elim
          | exact (notVar _ _ _ _ rfl rfl).elim
          | exact (notApply _ _ _ _ _ _ rfl rfl).elim
          | simp [Form.rank]
      · rename_i missing
        exact (missing node other found otherFound).elim

/-- The names of variables in a pool determine their types. -/
theorem WellTyped.exists_declared (typed : pool.WellTyped) :
    ∃ types : String → Ty, ∀ e, pool.Has e → (pool.tree e).Declared types := by
  have unique : ∀ name, ∃ ty, ∀ e other, pool.node? e = some ⟨other, .var name⟩ → other = ty := by
    intro name
    by_cases declared : ∃ e ty, pool.node? e = some ⟨ty, .var name⟩
    · obtain ⟨e, ty, stored⟩ := declared
      refine ⟨ty, fun other otherTy otherStored => ?_⟩
      obtain rfl := typed.eq_of_name_eq (variableName?_eq_some_iff.mpr ⟨ty, stored⟩)
        (variableName?_eq_some_iff.mpr ⟨otherTy, otherStored⟩)
      rw [stored] at otherStored
      cases otherStored
      rfl
    · exact ⟨.bool, fun e ty stored => absurd ⟨e, ty, stored⟩ declared⟩
  choose types isType using unique
  refine ⟨types, fun e stored => ?_⟩
  induction stored using Has.induction with
  | step e node found inductionHypothesis =>
    obtain ⟨ty, form⟩ := node
    cases form with
    | var name =>
      rw [tree_var found, isType name e ty found]
      exact .var
    | const value =>
      rw [tree_const found]
      exact .const
    | apply op operands =>
      rw [tree_apply found]
      refine .apply fun tree member => ?_
      obtain ⟨operand, operandMember, rfl⟩ := List.mem_map.mp member
      exact inductionHypothesis operand operandMember

section Sorting

variable {operands : List ExprId} (stored : ∀ operand ∈ operands, pool.Has operand)
include stored

/-- Stored expressions sorted are their trees sorted. -/
theorem map_tree_sorted :
    (Rules.sorted pool operands).map pool.tree = Tree.sorted (operands.map pool.tree) :=
  List.map_mergeSort fun a left b right => by
    rw [compare_eq_compare_tree (stored a left) (stored b right)]

/-- Expressions are sorted in the same way when the pool grows. -/
theorem Extends.sorted_eq {after : Pool} (extension : pool.Extends after) :
    Rules.sorted after operands = Rules.sorted pool operands := by
  have same := List.map_mergeSort (r := fun a b => (after.compare a b).isLE)
    (s := fun a b => (pool.compare a b).isLE) (f := id) (l := operands) fun a left b right => by
      have leftStored := stored a left
      have rightStored := stored b right
      rw [compare_eq_compare_tree (extension.has leftStored) (extension.has rightStored),
        extension.tree_eq leftStored, extension.tree_eq rightStored,
        ← compare_eq_compare_tree leftStored rightStored]
      rfl
  rwa [List.map_id, List.map_id] at same

/-- Sorting sorted expressions changes nothing. -/
theorem sorted_sorted :
    Rules.sorted pool (Rules.sorted pool operands) = Rules.sorted pool operands := by
  have trees := Tree.pairwise_sorted (operands.map pool.tree)
  rw [← map_tree_sorted stored, List.pairwise_map] at trees
  refine List.mergeSort_of_pairwise (trees.imp_of_mem fun {a b} left right inOrder => ?_)
  have member : ∀ {e}, e ∈ Rules.sorted pool operands → e ∈ operands := List.mem_mergeSort.mp
  rwa [compare_eq_compare_tree (stored a (member left)) (stored b (member right))]

end Sorting

end Pool

end Clausal
