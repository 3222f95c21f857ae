import Mathlib
import Clausal.Draft
import Clausal.Proofs.Interning
import Clausal.Proofs.Typing

/-!
# Growth of pools

A pool only ever grows: `Pool.Extends` says that a later pool has all nodes of
an earlier one. `Pool.WellTyped` is the invariant of pools: every application
fits its operator, every constant its type, every variable is declared under its
name, and no node is stored twice. `Pool.Grows` is both at once, a preorder that
every building action keeps. `Pool.Advances` adds that words of width zero do not
come from nowhere; only a declaration or a constant can bring the first one.
-/

namespace Clausal

namespace Pool

/-- A later pool has all nodes of an earlier one. -/
def Extends (before after : Pool) : Prop :=
  ∀ ⦃e : ExprId⦄ ⦃node : Node⦄, before.node? e = some node → after.node? e = some node

theorem Extends.refl (pool : Pool) : pool.Extends pool :=
  fun _ _ stored => stored

theorem Extends.trans {first second third : Pool} (earlier : first.Extends second)
    (later : second.Extends third) : first.Extends third :=
  fun _ _ stored => later (earlier stored)

theorem Extends.has {before after : Pool} (extension : before.Extends after) {e : ExprId}
    (stored : before.Has e) : after.Has e := by
  obtain ⟨node, found⟩ := has_iff.mp stored
  exact has_iff.mpr ⟨node, extension found⟩

theorem Extends.hasTy {before after : Pool} (extension : before.Extends after) {e : ExprId}
    {ty : Ty} (typed : before.HasTy e ty) : after.HasTy e ty := by
  obtain ⟨form, found⟩ := typed
  exact ⟨form, extension found⟩

/-- What is asked of the node of a stored expression is the same in a later pool. -/
theorem Extends.node?_eq {before after : Pool} (extension : before.Extends after) {e : ExprId}
    (stored : before.Has e) : after.node? e = before.node? e := by
  obtain ⟨node, found⟩ := has_iff.mp stored
  rw [found, extension found]

theorem Extends.hasTy_iff {before after : Pool} (extension : before.Extends after) {e : ExprId}
    {ty : Ty} (stored : before.Has e) : after.HasTy e ty ↔ before.HasTy e ty := by
  simp only [HasTy, extension.node?_eq stored]

theorem Extends.isVariable_eq {before after : Pool} (extension : before.Extends after) {e : ExprId}
    (stored : before.Has e) : after.isVariable e = before.isVariable e := by
  simp only [isVariable, variableName?, extension.node?_eq stored]

theorem Extends.operands_eq {before after : Pool} (extension : before.Extends after) {e : ExprId}
    (stored : before.Has e) : after.operands e = before.operands e := by
  simp only [operands, extension.node?_eq stored]

/-- The operands of a stored expression are stored. -/
theorem has_of_mem_operands {pool : Pool} {e operand : ExprId} {node : Node}
    (stored : pool.node? e = some node) (member : operand ∈ node.operands) : pool.Has operand := by
  unfold node? InternTable.get? at stored
  split at stored
  · cases stored
  · rename_i position index
    have inside := pool.closed position node stored operand member
    obtain ⟨bound, -⟩ := Array.getElem?_eq_some_iff.mp stored
    exact ⟨inside.1, le_trans inside.2 (le_of_lt bound)⟩

/-- A chain of `bit` and `field` selections ends at a variable. -/
inductive Selects (pool : Pool) : ExprId → Prop where
  | var {e : ExprId} {ty : Ty} {name : String} (stored : pool.node? e = some ⟨ty, .var name⟩) :
      Selects pool e
  | bit {e operand : ExprId} {ty : Ty} {index : Nat} {rest : List ExprId}
      (stored : pool.node? e = some ⟨ty, .apply (.bit index) (operand :: rest)⟩)
      (further : Selects pool operand) : Selects pool e
  | field {e operand : ExprId} {ty : Ty} {index : Nat} {rest : List ExprId}
      (stored : pool.node? e = some ⟨ty, .apply (.field index) (operand :: rest)⟩)
      (further : Selects pool operand) : Selects pool e

theorem selectsFromVariable_iff {pool : Pool} {e : ExprId} :
    pool.selectsFromVariable e ↔ pool.Selects e := by
  constructor
  · intro selects
    fun_induction selectsFromVariable pool e with
    | case1 e ty name stored => exact .var stored
    | case2 e ty index operand rest stored inductionHypothesis =>
      exact .bit stored (inductionHypothesis selects)
    | case3 e ty index operand rest stored inductionHypothesis =>
      exact .field stored (inductionHypothesis selects)
    | case4 => cases selects
  · intro selects
    induction selects with
    | var stored =>
      unfold selectsFromVariable
      split <;> simp_all
    | bit stored _ inductionHypothesis =>
      unfold selectsFromVariable
      split <;> grind
    | field stored _ inductionHypothesis =>
      unfold selectsFromVariable
      split <;> grind

theorem Selects.has {pool : Pool} {e : ExprId} (selects : pool.Selects e) : pool.Has e := by
  cases selects with
  | var stored | bit stored _ | field stored _ => exact has_iff.mpr ⟨_, stored⟩

/-- Selections from variables stay what they are. -/
theorem Extends.selects_iff {before after : Pool} (extension : before.Extends after) {e : ExprId}
    (stored : before.Has e) : after.Selects e ↔ before.Selects e := by
  constructor
  · intro selects
    induction selects with
    | var found =>
      rw [extension.node?_eq stored] at found
      exact .var found
    | bit found _ inductionHypothesis =>
      rw [extension.node?_eq stored] at found
      exact .bit found (inductionHypothesis
        (has_of_mem_operands found (by simp [Node.operands, Form.operands])))
    | field found _ inductionHypothesis =>
      rw [extension.node?_eq stored] at found
      exact .field found (inductionHypothesis
        (has_of_mem_operands found (by simp [Node.operands, Form.operands])))
  · intro selects
    clear stored
    induction selects with
    | var found => exact .var (extension found)
    | bit found _ inductionHypothesis => exact .bit (extension found) inductionHypothesis
    | field found _ inductionHypothesis => exact .field (extension found) inductionHypothesis

theorem Extends.isAtom_eq {before after : Pool} (extension : before.Extends after) {e : ExprId}
    (stored : before.Has e) : after.isAtom e = before.isAtom e := by
  have selects : after.selectsFromVariable e = before.selectsFromVariable e := by
    rw [Bool.eq_iff_iff, selectsFromVariable_iff, selectsFromVariable_iff,
      extension.selects_iff stored]
  simp only [isAtom, extension.node?_eq stored, selects]

/-- Literals are stored. -/
theorem has_of_isLiteral {pool : Pool} {e : ExprId} (literal : pool.isLiteral e) : pool.Has e := by
  have stored : ∃ node, pool.node? e = some node := by
    unfold isLiteral negated? isAtom at literal
    cases found : pool.node? e with
    | some node => exact ⟨node, rfl⟩
    | none => simp [found] at literal
  exact has_iff.mpr stored

theorem Extends.isLiteral_eq {before after : Pool} (extension : before.Extends after) {e : ExprId}
    (stored : before.Has e) : after.isLiteral e = before.isLiteral e := by
  unfold isLiteral
  have same : after.negated? e = before.negated? e := by
    simp only [negated?, extension.node?_eq stored]
  rw [same]
  apply extension.isAtom_eq
  unfold negated?
  split
  · rename_i found
    exact has_of_mem_operands found (by simp [Node.operands, Form.operands])
  · exact stored

theorem Extends.applies {before after : Pool} (extension : before.Extends after) {op : Op}
    {operands : List ExprId} {ty : Ty} (applies : before.Applies op operands ty) :
    after.Applies op operands ty := by
  obtain ⟨⟨types, each, typed⟩, literals⟩ := applies
  refine ⟨⟨types, each.imp fun _ _ => extension.hasTy, typed⟩, fun isClause operand member => ?_⟩
  obtain ⟨ty, -, typed⟩ := exists_of_forall₂_of_mem each member
  rw [extension.isLiteral_eq typed.has]
  exact literals isClause operand member

/-- What is demanded of a stored node. -/
def Fits (pool : Pool) (node : Node) : Prop :=
  match node.form with
  | .var _ => True
  | .const value => node.ty.admits value
  | .apply op operands => pool.Applies op operands node.ty

theorem Extends.fits {before after : Pool} (extension : before.Extends after) {node : Node}
    (fits : before.Fits node) : after.Fits node := by
  obtain ⟨ty, form⟩ := node
  cases form with
  | var name => exact fits
  | const value => exact fits
  | apply op operands => exact extension.applies fits

/-- Every stored node fits and is stored once, and the declared variables are
exactly the stored ones. -/
structure WellTyped (pool : Pool) : Prop where
  interned : pool.table.Lawful
  fits : ∀ {e : ExprId} {node : Node}, pool.node? e = some node → pool.Fits node
  declared : ∀ {e : ExprId} {ty : Ty} {name : String},
    pool.node? e = some ⟨ty, .var name⟩ → pool.declared? name = some e
  stored : ∀ {e : ExprId} {name : String},
    pool.declared? name = some e → ∃ ty, pool.node? e = some ⟨ty, .var name⟩

theorem variableName?_eq_some_iff {pool : Pool} {e : ExprId} {name : String} :
    pool.variableName? e = some name ↔ ∃ ty, pool.node? e = some ⟨ty, .var name⟩ := by
  unfold variableName?
  split
  · rename_i ty found stored
    simp [stored]
  · rename_i other
    exact ⟨nofun, fun ⟨ty, stored⟩ => (other ty name stored).elim⟩

theorem isVariable_iff {pool : Pool} {e : ExprId} :
    pool.isVariable e ↔ ∃ ty name, pool.node? e = some ⟨ty, .var name⟩ := by
  rw [isVariable, Option.isSome_iff_exists, exists_comm]
  simp only [variableName?_eq_some_iff]

/-- Variables with the same name are the same. -/
theorem WellTyped.eq_of_name_eq {pool : Pool} {e other : ExprId} {name : String}
    (typed : pool.WellTyped) (named : pool.variableName? e = some name)
    (otherNamed : pool.variableName? other = some name) : e = other := by
  obtain ⟨ty, stored⟩ := variableName?_eq_some_iff.mp named
  obtain ⟨otherTy, otherStored⟩ := variableName?_eq_some_iff.mp otherNamed
  exact Option.some.inj ((typed.declared stored).symm.trans (typed.declared otherStored))

/-- The words in the types of stored expressions have positive widths. -/
def Sized (pool : Pool) : Prop :=
  ∀ ⦃e : ExprId⦄ ⦃ty : Ty⦄, pool.HasTy e ty → ty.Sized

/-- Types of positive widths were such in an earlier pool. -/
theorem Extends.sized {before after : Pool} (extension : before.Extends after)
    (sized : after.Sized) : before.Sized :=
  fun _ _ hasTy => sized (extension.hasTy hasTy)

/-- A result has positive widths if the operands have. -/
theorem Applies.sized {pool : Pool} {op : Op} {operands : List ExprId} {ty : Ty}
    (applies : pool.Applies op operands ty) (sized : pool.Sized) : ty.Sized := by
  obtain ⟨types, each, operator⟩ := applies.typed
  refine operator.sized fun operandTy member => ?_
  obtain ⟨operand, -, hasTy⟩ := exists_of_forall₂_of_mem each.flip member
  exact sized hasTy

/-- A later pool has all nodes of an earlier one and is as well typed. -/
structure Grows (before after : Pool) : Prop where
  extension : before.Extends after
  wellTyped : before.WellTyped → after.WellTyped

instance : IsPreorder Pool Grows where
  refl pool := ⟨.refl pool, id⟩
  trans _ _ _ earlier later :=
    ⟨earlier.extension.trans later.extension, fun typed => later.wellTyped (earlier.wellTyped typed)⟩

/-- A later pool has grown, and words of width zero are in it only if there were
some before. -/
structure Advances (before after : Pool) : Prop extends Grows before after where
  sized : before.Sized → after.Sized

instance : IsPreorder Pool Advances where
  refl pool := ⟨refl pool, id⟩
  trans _ _ _ earlier later :=
    ⟨IsTrans.trans _ _ _ earlier.toGrows later.toGrows, fun sized => later.sized (earlier.sized sized)⟩

section Empty

variable (bits : Nat) (leafKey : Node → UInt64)

theorem node?_empty (e : ExprId) : (empty bits leafKey).node? e = none := by
  unfold node? InternTable.get?
  split <;> rfl

theorem sized_empty : (empty bits leafKey).Sized := by
  rintro e ty ⟨form, stored⟩
  simp [node?_empty] at stored

/-- A pool without nodes is well typed. -/
theorem wellTyped_empty : (empty bits leafKey).WellTyped := by
  refine ⟨InternTable.lawful_empty _ bits, ?_, ?_, ?_⟩
  · intro e node stored
    simp [node?_empty] at stored
  · intro e ty name stored
    simp [node?_empty] at stored
  · intro e name declared
    simp [declared?, empty] at declared

end Empty

section Intern

variable {pool : Pool} {node : Node} (known : ∀ operand ∈ node.operands, pool.Has operand)

/-- The returned name has the stored node. -/
theorem node?_intern : (pool.intern node known).2.node? (pool.intern node known).1 = some node :=
  InternTable.get?_put pool.table node

theorem extends_intern : pool.Extends (pool.intern node known).2 :=
  fun _ _ stored => InternTable.get?_put_of_get? stored

/-- Only the stored node is new. -/
theorem node?_of_node?_intern {e : ExprId} {other : Node}
    (stored : (pool.intern node known).2.node? e = some other) :
    pool.node? e = some other ∨ e = (pool.intern node known).1 ∧ other = node := by
  rcases InternTable.get?_of_get?_put stored with old | ⟨same, rfl⟩
  · exact .inl old
  · exact .inr ⟨by cases e; exact congrArg ExprId.mk same, rfl⟩

/-- A node with positive widths leaves a pool with positive widths. -/
theorem sized_intern (sizedNode : pool.Sized → node.ty.Sized) (sized : pool.Sized) :
    (pool.intern node known).2.Sized := by
  rintro e ty ⟨form, stored⟩
  rcases node?_of_node?_intern known stored with old | ⟨-, rfl⟩
  · exact sized ⟨form, old⟩
  · exact sizedNode sized

/-- A fitting node other than a variable may be added to a well-typed pool. -/
theorem grows_intern (fits : pool.WellTyped → pool.Fits node)
    (notVar : ∀ name, node.form ≠ .var name) : pool.Grows (pool.intern node known).2 := by
  refine ⟨extends_intern known, fun typed => ⟨typed.interned.put node, ?_, ?_, ?_⟩⟩
  · intro e other stored
    rcases node?_of_node?_intern known stored with old | ⟨-, rfl⟩
    · exact (extends_intern known).fits (typed.fits old)
    · exact (extends_intern known).fits (fits typed)
  · intro e ty name stored
    rcases node?_of_node?_intern known stored with old | ⟨-, rfl⟩
    · exact typed.declared old
    · exact absurd rfl (notVar name)
  · intro e name declared
    obtain ⟨ty, stored⟩ := typed.stored declared
    exact ⟨ty, extends_intern known stored⟩

end Intern

/-- A name that is not declared may be declared in a well-typed pool. -/
theorem grows_declare {pool : Pool} {name : String} {ty : Ty}
    (known : ∀ operand ∈ (⟨ty, .var name⟩ : Node).operands, pool.Has operand)
    (fresh : pool.declared? name = none) :
    pool.Grows { (pool.intern ⟨ty, .var name⟩ known).2 with
      declared := pool.declared.insert name (pool.intern ⟨ty, .var name⟩ known).1 } := by
  set after : Pool := { (pool.intern ⟨ty, .var name⟩ known).2 with
    declared := pool.declared.insert name (pool.intern ⟨ty, .var name⟩ known).1 }
  have extension : pool.Extends after := extends_intern known
  refine ⟨extension, fun typed => ⟨typed.interned.put _, ?_, ?_, ?_⟩⟩
  · intro e other stored
    rcases node?_of_node?_intern known stored with old | ⟨-, rfl⟩
    · exact extension.fits (typed.fits old)
    · trivial
  · intro e otherTy otherName stored
    unfold declared?
    rw [Std.HashMap.getElem?_insert]
    rcases node?_of_node?_intern known stored with old | ⟨rfl, same⟩
    · have declared := typed.declared old
      split
      · rename_i same
        rw [← eq_of_beq same, fresh] at declared
        cases declared
      · exact declared
    · cases same
      simp
  · intro e otherName declared
    unfold declared? at declared
    rw [Std.HashMap.getElem?_insert] at declared
    split at declared
    · rename_i same
      cases declared
      rw [← eq_of_beq same]
      exact ⟨ty, node?_intern known⟩
    · obtain ⟨otherTy, stored⟩ := typed.stored declared
      exact ⟨otherTy, extension stored⟩

end Pool

end Clausal
