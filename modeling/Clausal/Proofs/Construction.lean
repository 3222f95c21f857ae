import Mathlib
import Clausal.Proofs.Growth

/-!
# Construction of expressions

What the actions that build expressions do to a pool. `Build.Yields` is about an
action that succeeds, for instance because its operands fit; `Build.Keeps` is
about any action: whether it succeeds or fails, the pool afterwards extends the
pool before and is as well typed.
-/

namespace Clausal

namespace Build

variable {α β : Type} {pool : Pool}

/-- An action succeeds, the pool advances, and `done` holds at the end. -/
abbrev Yields (action : Build α) (pool : Pool) (done : α → Pool → Prop) : Prop :=
  Stateful.Yields Pool.Advances action pool done

/-- The pool advances, whether the action succeeds or fails. -/
abbrev Keeps (action : Build α) (pool : Pool) : Prop :=
  Stateful.Keeps Pool.Advances action pool

/-- A constant of a type is stored, whatever the widths are. -/
theorem leaf_grows {ty : Ty} {value : Value} (admitted : ty.admits value) :
    Stateful.Yields Pool.Grows (leaf ty (.const value) rfl) pool fun e after =>
      after.node? e = some ⟨ty, .const value⟩ := by
  have known : ∀ operand ∈ (⟨ty, .const value⟩ : Node).operands, pool.Has operand := nofun
  exact ⟨Pool.grows_intern known (fun _ => admitted) nofun, Pool.node?_intern known⟩

theorem leaf_yields {ty : Ty} {value : Value} (sized : pool.Sized → ty.Sized)
    (admitted : ty.admits value) :
    Yields (leaf ty (.const value) rfl) pool fun e after =>
      after.node? e = some ⟨ty, .const value⟩ := by
  have known : ∀ operand ∈ (⟨ty, .const value⟩ : Node).operands, pool.Has operand := nofun
  have grows := @leaf_grows pool ty value admitted
  exact ⟨⟨grows.1, Pool.sized_intern known sized⟩, grows.2⟩

theorem truth_yields (value : Bool) :
    Yields (truth value) pool fun e after =>
      after.node? e = some ⟨.bool, .const (.bool value)⟩ :=
  leaf_yields (fun _ => trivial) rfl

theorem const_yields {ty : Ty} {value : Value} (sized : pool.Sized → ty.Sized)
    (admitted : ty.admits value) :
    Yields (const ty value) pool fun e after => after.node? e = some ⟨ty, .const value⟩ := by
  unfold const
  rw [if_pos admitted]
  exact leaf_yields sized admitted

theorem const_keeps {ty : Ty} (value : Value) (sized : pool.Sized → ty.Sized) :
    Keeps (const ty value) pool := by
  by_cases admitted : ty.admits value
  · exact (const_yields sized admitted).keeps
  · unfold const
    rw [if_neg admitted]
    exact Stateful.Keeps.throw

theorem word_yields {width number : Nat} (positive : 0 < width) (small : number < 2 ^ width) :
    Yields (word width number) pool fun e after =>
      after.node? e = some ⟨.uint width, .const (.uint number)⟩ := by
  unfold word
  rw [if_neg positive.ne']
  exact const_yields (fun _ => positive) (Ty.admits_uint_iff.mpr ⟨number, rfl, small⟩)

theorem word_keeps (width number : Nat) : Keeps (word width number) pool := by
  unfold word
  split
  · exact Stateful.Keeps.throw
  · rename_i nonzero
    exact const_keeps _ fun _ => Nat.pos_of_ne_zero nonzero

/-- An application that fits is built. -/
theorem apply_yields {op : Op} {operands : List ExprId} {ty : Ty}
    (applies : pool.Applies op operands ty) :
    Yields (apply op operands) pool fun e after =>
      after.node? e = some ⟨ty, .apply op operands⟩ := by
  have known : ∀ operand ∈ operands, pool.Has operand := by
    intro operand member
    obtain ⟨types, each, -⟩ := applies.typed
    obtain ⟨operandTy, -, typed⟩ := exists_of_forall₂_of_mem each member
    exact typed.has
  unfold Yields Stateful.Yields Stateful.Meets apply
  rw [Pool.typing_eq_ok_iff.mpr applies]
  simp only [dif_pos known]
  change ∀ operand ∈ (⟨ty, .apply op operands⟩ : Node).operands, pool.Has operand at known
  exact ⟨⟨Pool.grows_intern known (fun _ => applies) (by simp),
    Pool.sized_intern known applies.sized⟩, Pool.node?_intern known⟩

theorem apply_keeps (op : Op) (operands : List ExprId) : Keeps (apply op operands) pool := by
  cases checked : pool.typing op operands with
  | ok ty => exact (apply_yields (Pool.typing_eq_ok_iff.mp checked)).keeps
  | error failure =>
    unfold Keeps Stateful.Keeps Stateful.Meets apply
    rw [checked]
    exact refl pool

/-- A variable with a new name is declared, whatever the widths are. -/
theorem var_grows_of_fresh {name : String} {ty : Ty} (fresh : pool.declared? name = none) :
    Stateful.Yields Pool.Grows (var name ty) pool fun e after =>
      after.node? e = some ⟨ty, .var name⟩ := by
  have known : ∀ operand ∈ (⟨ty, .var name⟩ : Node).operands, pool.Has operand := nofun
  unfold Stateful.Yields Stateful.Meets var
  rw [fresh]
  exact ⟨Pool.grows_declare known fresh, Pool.node?_intern known⟩

/-- A variable with a new name is declared. -/
theorem var_yields {name : String} {ty : Ty} (sized : ty.Sized) (fresh : pool.declared? name = none) :
    Yields (var name ty) pool fun e after => after.node? e = some ⟨ty, .var name⟩ := by
  have known : ∀ operand ∈ (⟨ty, .var name⟩ : Node).operands, pool.Has operand := nofun
  have grows := @var_grows_of_fresh pool name ty fresh
  unfold Yields Stateful.Yields Stateful.Meets var at *
  rw [fresh] at grows ⊢
  exact ⟨⟨grows.1, Pool.sized_intern known fun _ => sized⟩, grows.2⟩

/-- Declaring a variable declares no other name. -/
theorem declared?_eq_of_var {name other : String} {ty : Ty} {e : ExprId} {after : Pool}
    (ended : var name ty pool = .ok e after) (differ : other ≠ name) :
    after.declared? other = pool.declared? other := by
  unfold var at ended
  split at ended
  · split at ended
    · cases ended
    · split at ended <;> cases ended
      rfl
  · cases ended
    change (pool.declared.insert name _)[other]? = pool.declared[other]?
    rw [Std.HashMap.getElem?_insert, if_neg]
    simpa using differ.symm

/-- Nothing is stored for a name that is declared. -/
theorem var_final_of_declared {name : String} {ty : Ty} {e : ExprId}
    (found : pool.declared? name = some e) : Stateful.final (var name ty) pool = pool := by
  unfold Stateful.final var
  rw [found]
  dsimp only
  cases pool.ty e with
  | error fault => rfl
  | ok existing =>
    dsimp only
    split_ifs <;> rfl

/-- A pool grows with every attempt to declare a variable. -/
theorem var_grows (name : String) (ty : Ty) :
    pool.Grows (Stateful.final (var name ty) pool) := by
  cases found : pool.declared? name with
  | none => exact (var_grows_of_fresh found).keeps.final
  | some e =>
    rw [var_final_of_declared found]
    exact refl pool

/-- Declaring a variable keeps the pool, also when it is declared already. -/
theorem var_keeps {name : String} {ty : Ty} (sized : ty.Sized) : Keeps (var name ty) pool := by
  cases found : pool.declared? name with
  | none => exact (var_yields sized found).keeps
  | some e =>
    refine Stateful.keeps_of_final ?_
    rw [var_final_of_declared found]
    exact refl pool

/-- The type of a stored expression is looked up. -/
theorem tyOf_bind {e : ExprId} {ty : Ty} (hasTy : pool.HasTy e ty) (next : Ty → Build α) :
    (tyOf e >>= next) pool = next ty pool := by
  change (Stateful.ofExcept (pool.ty e) >>= next) pool = _
  rw [Pool.ty_eq_ok_iff.mpr hasTy]
  rfl

theorem tyOf_yields {e : ExprId} {ty : Ty} (hasTy : pool.HasTy e ty) {next : Ty → Build α}
    {done : α → Pool → Prop} (rest : Yields (next ty) pool done) :
    Yields (tyOf e >>= next) pool done := by
  unfold Yields Stateful.Yields Stateful.Meets
  rw [tyOf_bind hasTy]
  exact rest

theorem collectAfter_eq (step : Nat → Build ExprId) (count index : Nat) (found : List ExprId) :
    collectAfter step count index found =
      (do let rest ← (List.range' index count).mapM step; return found.reverse ++ rest) := by
  induction count generalizing index found with
  | zero => simp [collectAfter]
  | succ count inductionHypothesis =>
    simp [collectAfter, List.range'_succ, inductionHypothesis]

/-- Collecting is a step at every number in order. -/
theorem collect_eq (count : Nat) (step : Nat → Build ExprId) :
    collect count step = (List.range count).mapM step := by
  simp [collect, collectAfter_eq, List.range_eq_range']

end Build

namespace Draft

theorem buildAfter_eq (stored : List ExprId) (drafts : List Draft) :
    buildAfter stored drafts =
      (do let built ← drafts.mapM build; return stored.reverse ++ built) := by
  induction drafts generalizing stored with
  | nil => simp [buildAfter]
  | cons draft drafts inductionHypothesis => simp [buildAfter, inductionHypothesis]

/-- The operands of an application are built from left to right. -/
theorem build_apply (op : Op) (operands : List Draft) :
    build (.apply op operands) = (do let built ← operands.mapM build; Build.apply op built) := by
  simp [build, buildAfter_eq]

end Draft

end Clausal
