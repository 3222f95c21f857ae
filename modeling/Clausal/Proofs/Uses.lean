import Mathlib
import Clausal.Proofs.Evolution

/-!
# Everything that builds

`Pool.Constructs` is a sequence of constructions: declarations, constants and
applications. Whatever builds expressions does so by constructions, which is shown
here for the rules, called on any operands, and for walks, with any step that
itself builds by constructions. `Workspace.Use` adds these to the operations on a
workspace.

Since a construction is an operation of its own, nothing new is reached in this way.
Uses lead where moves lead (`used_iff_evolved`), and where all words have positive
widths, they lead to reachable workspaces only (`reachable_iff`).
-/

namespace Clausal

namespace Pool

variable {pool before after : Pool}

/-- One construction, which may succeed or fail. -/
inductive Construction (pool : Pool) : Pool → Prop where
  | var (name : String) (ty : Ty) : Construction pool (Stateful.final (Build.var name ty) pool)
  | const (ty : Ty) (value : Value) : Construction pool (Stateful.final (Build.const ty value) pool)
  | apply (op : Op) (operands : List ExprId) :
      Construction pool (Stateful.final (Build.apply op operands) pool)

/-- A later pool comes from an earlier one by constructions. -/
def Constructs : Pool → Pool → Prop :=
  Relation.ReflTransGen Construction

instance : IsPreorder Pool Constructs where
  refl _ := .refl
  trans _ _ _ earlier later := Relation.ReflTransGen.trans earlier later

theorem Construction.grows (construction : before.Construction after) : before.Grows after := by
  cases construction with
  | var name ty => exact Build.var_grows name ty
  | const ty value => exact (Build.const_makes ty value).keeps.final
  | apply op operands => exact (Build.apply_makes op operands).keeps.final

theorem Constructs.grows (constructs : before.Constructs after) : before.Grows after := by
  induction constructs with
  | refl => exact refl before
  | tail _ construction inductionHypothesis =>
    exact IsTrans.trans _ _ _ inductionHypothesis construction.grows

end Pool

namespace Build

variable {α : Type}

/-- An action builds by constructions only. -/
abbrev Constructive (action : Build α) : Prop :=
  ∀ pool, Stateful.Keeps Pool.Constructs action pool

theorem constructive_of_final {action : Build α}
    (each : ∀ pool : Pool, pool.Construction (Stateful.final action pool)) : Constructive action :=
  fun pool => Stateful.keeps_of_final (.single (each pool))

theorem constructive_apply (op : Op) (operands : List ExprId) : Constructive (apply op operands) :=
  constructive_of_final fun _ => .apply op operands

theorem constructive_const (ty : Ty) (value : Value) : Constructive (const ty value) :=
  constructive_of_final fun _ => .const ty value

theorem constructive_truth (value : Bool) : Constructive (truth value) :=
  constructive_const .bool (.bool value)

theorem constructive_word (width number : Nat) : Constructive (word width number) := by
  intro pool
  unfold word
  split
  · exact Stateful.Keeps.throw
  · exact constructive_const _ _ pool

theorem constructive_mapM {items : List α} {step : α → Build ExprId}
    (each : ∀ item ∈ items, Constructive (step item)) : Constructive (items.mapM step) :=
  fun _ => Stateful.Keeps.mapM fun item member after _ => each item member after

theorem constructive_collect {step : Nat → Build ExprId} (count : Nat)
    (each : ∀ index, Constructive (step index)) : Constructive (collect count step) := by
  rw [collect_eq]
  exact constructive_mapM fun index _ => each index

theorem constructive_tyOf (e : ExprId) : Constructive (tyOf e) := by
  intro pool
  refine Stateful.Keeps.get ?_
  cases pool.ty e with
  | ok ty => exact Stateful.Keeps.pure
  | error fault => exact Stateful.Keeps.throw

/-- What is built is built by constructions, and so is the rest. -/
theorem Constructive.bind {β : Type} {action : Build α} {next : α → Build β}
    (first : Constructive action) (rest : ∀ result, Constructive (next result)) :
    Constructive (action >>= next) :=
  fun pool => (first pool).bind fun result after _ => rest result after

theorem constructive_pure (result : α) : Constructive (pure result : Build α) :=
  fun _ => Stateful.Keeps.pure

theorem constructive_breach (fault : Fault) : Constructive (Stateful.breach fault : Build α) :=
  fun _ => Stateful.Keeps.throw

theorem constructive_ofExcept (source : Except Fault α) :
    Constructive (Stateful.ofExcept source : Build α) := by
  cases source with
  | ok result => exact constructive_pure result
  | error fault => exact constructive_breach fault

end Build

namespace Draft

open Build

theorem constructive_build (draft : Draft) : Constructive draft.build := by
  induction draft using Draft.induction with
  | known e => exact constructive_pure e
  | const ty value => exact constructive_const ty value
  | word width number => exact constructive_word width number
  | apply op operands inductionHypothesis =>
    rw [build_apply]
    exact (constructive_mapM inductionHypothesis).bind (constructive_apply op)

theorem constructive_build? (proposal : Option Draft) : Constructive (build? proposal) := by
  cases proposal with
  | none => exact constructive_pure none
  | some draft => exact (constructive_build draft).bind fun e => constructive_pure (some e)

end Draft

section Rules

open Build

variable (a b c : ExprId) (width : Nat) (op : Op) (operands : List ExprId)

theorem Circuit.constructive_lowBits : Constructive (lowBits width a) := by
  refine (constructive_tyOf a).bind fun ty => constructive_collect width fun index => ?_
  split
  · exact constructive_apply _ _
  · exact constructive_truth false

theorem Circuit.constructive_ripple (carry : Option ExprId) (columns : List (ExprId × ExprId)) :
    Constructive (ripple carry columns) := by
  induction columns generalizing carry with
  | nil => cases carry <;> exact constructive_pure []
  | cons column columns inductionHypothesis =>
    obtain ⟨x, y⟩ := column
    cases carry with
    | none =>
      refine (constructive_apply _ _).bind fun half => ?_
      split
      · exact constructive_pure [half]
      · exact (constructive_apply _ _).bind fun carry =>
          (inductionHypothesis _).bind fun rest => constructive_pure (half :: rest)
    | some carry =>
      refine (constructive_apply _ _).bind fun half => (constructive_apply _ _).bind fun digit => ?_
      split
      · exact constructive_pure [digit]
      · exact (constructive_apply _ _).bind fun generated => (constructive_apply _ _).bind
          fun propagated => (constructive_apply _ _).bind fun carry =>
            (inductionHypothesis _).bind fun rest => constructive_pure (digit :: rest)

theorem Circuit.constructive_sum (xs ys : List ExprId) : Constructive (sum xs ys) := by
  unfold sum
  split
  · exact constructive_ripple none (xs.zip ys)
  · exact constructive_breach .unevenRows

theorem Circuit.constructive_partialProduct (xs ys : List ExprId) (digit count : Nat) :
    Constructive (partialProduct xs ys digit count) :=
  constructive_collect count fun _ => (constructive_ofExcept _).bind fun _ =>
    (constructive_ofExcept _).bind fun _ => constructive_apply _ _

theorem Circuit.constructive_addRows (xs ys : List ExprId) (count digit : Nat) (row : List ExprId) :
    Constructive (addRows xs ys count digit row) := by
  induction count generalizing digit row with
  | zero => exact constructive_pure row
  | succ count inductionHypothesis =>
    refine (constructive_partialProduct xs ys digit (count + 1)).bind fun product => ?_
    cases row with
    | nil => exact constructive_breach .outOfRange
    | cons column columns =>
      exact (constructive_sum columns product).bind fun total =>
        (inductionHypothesis (digit + 1) total).bind fun rest => constructive_pure (column :: rest)

theorem Circuit.constructive_add : Constructive (add width a b) :=
  (constructive_lowBits a width).bind fun xs => (constructive_lowBits b width).bind fun ys =>
    (constructive_sum xs ys).bind fun _ => constructive_apply _ _

theorem Circuit.constructive_mul : Constructive (mul width a b) :=
  (constructive_lowBits a width).bind fun xs => (constructive_lowBits b width).bind fun ys =>
    (constructive_partialProduct xs ys 0 xs.length).bind fun row =>
      (constructive_addRows xs ys (width - 1) 1 row).bind fun _ => constructive_apply _ _

namespace Rules

theorem constructive_simplify : Constructive (simplify op operands) :=
  fun pool => Stateful.Keeps.get (Stateful.Keeps.ofExcept fun proposal _ =>
    Draft.constructive_build? proposal pool)

theorem constructive_negate : Constructive (negate op operands) :=
  fun pool => Stateful.Keeps.get (Stateful.Keeps.ofExcept fun proposal _ =>
    Draft.constructive_build? proposal pool)

theorem constructive_canonicalize : Constructive (canonicalize op operands) :=
  fun pool => Stateful.Keeps.get (Draft.constructive_build? _ pool)

theorem constructive_wordChoice : Constructive (wordChoice width a b c) :=
  (constructive_collect width fun _ => Draft.constructive_build _).bind fun _ => constructive_apply _ _

theorem constructive_partwiseEquality (select : Nat → Op) (count : Nat) :
    Constructive (partwiseEquality select count a b) :=
  (constructive_collect count fun _ => Draft.constructive_build _).bind fun _ => constructive_apply _ _

theorem constructive_decomposeChoice (ty : Ty) : Constructive (decomposeChoice ty a b c) := by
  cases ty with
  | bool => exact (Draft.constructive_build _).bind fun _ => constructive_pure _
  | uint width => exact (constructive_wordChoice a b c width).bind fun _ => constructive_pure _
  | tuple fields => exact constructive_pure none

theorem constructive_decomposeEquality (ty : Ty) : Constructive (decomposeEquality ty a b) := by
  cases ty with
  | bool => exact constructive_pure none
  | uint width => exact (constructive_partwiseEquality a b _ _).bind fun _ => constructive_pure _
  | tuple fields =>
    cases fields with
    | nil => exact (constructive_truth true).bind fun _ => constructive_pure _
    | cons => exact (constructive_partwiseEquality a b _ _).bind fun _ => constructive_pure _

theorem constructive_decompose : Constructive (decompose op operands) := by
  unfold decompose
  split
  · exact (Draft.constructive_build _).bind fun _ => constructive_pure _
  · exact (constructive_tyOf _).bind fun ty => constructive_decomposeChoice _ _ _ ty
  · exact (constructive_tyOf _).bind fun ty => constructive_decomposeEquality _ _ ty
  · exact (Circuit.constructive_add _ _ _).bind fun _ => constructive_pure _
  · exact (Circuit.constructive_mul _ _ _).bind fun _ => constructive_pure _
  · exact fun pool => Stateful.Keeps.throw
  · exact fun pool => Stateful.Keeps.throw
  · exact fun pool => Stateful.Keeps.throw
  · exact fun pool => Stateful.Keeps.throw
  · exact fun pool => Stateful.Keeps.throw
  · exact constructive_pure none

end Rules

end Rules

namespace Walk

variable {α σ : Type} {memo : Memo σ} {step : ExprId → Walk σ ExprId}

/-- The pool of a later workspace comes from that of an earlier one by constructions. -/
def Constructs (before after : Workspace σ) : Prop :=
  before.pool.Constructs after.pool

instance : IsPreorder (Workspace σ) Constructs where
  refl workspace := refl (r := Pool.Constructs) workspace.pool
  trans _ _ _ earlier later := IsTrans.trans (r := Pool.Constructs) _ _ _ earlier later

/-- A walk builds by constructions only. -/
abbrev Constructive (action : Walk σ α) : Prop :=
  ∀ workspace, Stateful.Keeps Constructs action workspace

theorem constructive_ofBuild {action : Build α} (constructive : Build.Constructive action) :
    Constructive (ofBuild action : Walk σ α) := by
  rintro ⟨pool, memory⟩
  have keeps := constructive pool
  unfold Stateful.Keeps Stateful.Meets at *
  unfold ofBuild
  dsimp only
  cases ended : action pool with
  | ok result after =>
    rw [ended] at keeps
    exact keeps
  | error failure after =>
    rw [ended] at keeps
    exact keeps

theorem constructive_remember (e result : ExprId) : Constructive (remember memo e result) :=
  fun workspace => refl (r := Pool.Constructs) workspace.pool

theorem constructive_withOperands (e : ExprId) (old new : List ExprId) :
    Build.Constructive (withOperands e old new) := by
  intro pool
  unfold withOperands
  split
  · exact Stateful.Keeps.pure
  · refine Stateful.Keeps.get ?_
    split
    · exact Build.constructive_apply _ _ pool
    · exact Stateful.Keeps.pure

theorem keeps_lookUp {workspace : Workspace σ} {e : ExprId} {next : Option ExprId → Walk σ ExprId}
    (rest : ∀ found, Stateful.Keeps Constructs (next found) workspace) :
    Stateful.Keeps Constructs (lookUp memo e >>= next) workspace :=
  rest (memo.find? workspace.memory e)

theorem constructive_bottomUp (each : ∀ e, Constructive (step e)) (e : ExprId) :
    Constructive (bottomUp memo step e) := by
  induction index : e.index using Nat.strong_induction_on generalizing e with
  | _ size inductionHypothesis =>
  subst index
  intro workspace
  rw [bottomUp_eq]
  refine keeps_lookUp fun found => ?_
  cases found with
  | some result => exact Stateful.Keeps.pure
  | none =>
    refine Stateful.Keeps.get ?_
    refine (Stateful.Keeps.mapM fun operand member after _ => ?_).bind fun new first _ => ?_
    · exact inductionHypothesis _ (Pool.index_lt_of_mem_operands member) operand rfl after
    · refine (constructive_ofBuild (constructive_withOperands _ _ _) first).bind fun same second _ => ?_
      refine (each same second).bind fun result third _ => ?_
      exact (constructive_remember e result third).bind fun _ _ _ => Stateful.Keeps.pure

theorem constructive_topDown (each : ∀ e, Constructive (step e)) (depth : Nat) (e : ExprId) :
    Constructive (topDown memo step depth e) := by
  induction depth generalizing e with
  | zero => exact fun _ => Stateful.Keeps.throw
  | succ depth inductionHypothesis =>
    intro workspace
    unfold topDown
    refine keeps_lookUp fun found => ?_
    cases found with
    | some result => exact Stateful.Keeps.pure
    | none =>
      refine (each e workspace).bind fun top first _ => Stateful.Keeps.get ?_
      refine (Stateful.Keeps.mapM fun operand _ after _ => inductionHypothesis operand after).bind
        fun new second _ => ?_
      refine (constructive_ofBuild (constructive_withOperands _ _ _) second).bind fun result third _ => ?_
      exact (constructive_remember e result third).bind fun _ _ _ => Stateful.Keeps.pure

end Walk

namespace Build

variable {step : ExprId → Build ExprId} {pool : Pool}

theorem constructs_runTraced {walk : Walk Trace ExprId} (constructive : Walk.Constructive walk) :
    pool.Constructs (runTraced walk pool).2.2 := by
  have keeps := constructive ⟨pool, .empty⟩
  unfold Stateful.Keeps Stateful.Meets at keeps
  unfold runTraced
  split <;> rename_i ended <;> rw [ended] at keeps <;> exact keeps

theorem constructive_noting (each : ∀ e, Constructive (step e)) (e : ExprId) :
    Walk.Constructive (Trace.noting step e) := by
  rintro ⟨pool, trace⟩
  exact Walk.constructive_ofBuild (each e) ⟨pool, { trace with visits := trace.visits.push e }⟩

theorem constructs_bottomUp (each : ∀ e, Constructive (step e)) (e : ExprId) :
    pool.Constructs (bottomUp step e pool).2.2 :=
  constructs_runTraced (Walk.constructive_bottomUp (constructive_noting each) e)

theorem constructs_topDown (each : ∀ e, Constructive (step e)) (e : ExprId) :
    pool.Constructs (topDown step e pool).2.2 :=
  constructs_runTraced (Walk.constructive_topDown (constructive_noting each) _ e)

end Build

namespace Workspace

variable {before after workspace : Workspace PassMemory}

/-- One operation on a workspace: a move, a rule called on any operands, or a walk with
any step that builds by constructions. -/
inductive Use (workspace : Workspace PassMemory) : Workspace PassMemory → Prop where
  | move {after : Workspace PassMemory} (move : workspace.Move after) : Use workspace after
  | simplify (op : Op) (operands : List ExprId) :
      Use workspace ⟨Stateful.final (Rules.simplify op operands) workspace.pool, workspace.memory⟩
  | negate (op : Op) (operands : List ExprId) :
      Use workspace ⟨Stateful.final (Rules.negate op operands) workspace.pool, workspace.memory⟩
  | canonicalize (op : Op) (operands : List ExprId) :
      Use workspace ⟨Stateful.final (Rules.canonicalize op operands) workspace.pool, workspace.memory⟩
  | decompose (op : Op) (operands : List ExprId) :
      Use workspace ⟨Stateful.final (Rules.decompose op operands) workspace.pool, workspace.memory⟩
  | bottomUp {step : ExprId → Build ExprId} (constructive : ∀ e, Build.Constructive (step e))
      (e : ExprId) : Use workspace ⟨(Build.bottomUp step e workspace.pool).2.2, workspace.memory⟩
  | topDown {step : ExprId → Build ExprId} (constructive : ∀ e, Build.Constructive (step e))
      (e : ExprId) : Use workspace ⟨(Build.topDown step e workspace.pool).2.2, workspace.memory⟩

/-- The workspaces that any operations lead to, from one without expressions. -/
def Used (workspace : Workspace PassMemory) : Prop :=
  ∃ bits leafKey, Relation.ReflTransGen Use ⟨.empty bits leafKey, ∅⟩ workspace

/-- Every operation is a step or a sequence of constructions that leave the memory as it
is. -/
theorem Use.step_or_constructs (use : before.Use after) :
    before.Step after ∨ ∃ pool, before.pool.Constructs pool ∧ after = ⟨pool, before.memory⟩ := by
  have built : ∀ {pool}, before.pool.Constructs pool → before.Step ⟨pool, before.memory⟩ ∨
      ∃ last, before.pool.Constructs last ∧ ⟨pool, before.memory⟩ = (⟨last, before.memory⟩ : Workspace _) :=
    fun constructs => .inr ⟨_, constructs, rfl⟩
  cases use with
  | move move =>
    cases move with
    | step step => exact .inl step
    | var name ty =>
      rw [Work.final_ofBuild]
      exact built (.single (.var name ty))
    | const ty value =>
      rw [Work.final_ofBuild]
      exact built (.single (.const ty value))
  | simplify op operands => exact built (Rules.constructive_simplify op operands before.pool).final
  | negate op operands => exact built (Rules.constructive_negate op operands before.pool).final
  | canonicalize op operands => exact built (Rules.constructive_canonicalize op operands before.pool).final
  | decompose op operands => exact built (Rules.constructive_decompose op operands before.pool).final
  | bottomUp constructive e => exact built (Build.constructs_bottomUp constructive e)
  | topDown constructive e => exact built (Build.constructs_topDown constructive e)

section Evolution

theorem move_of_construction {pool : Pool} (construction : before.pool.Construction pool) :
    before.Move ⟨pool, before.memory⟩ := by
  cases construction <;> rw [← Work.final_ofBuild]
  case var name ty => exact .var name ty
  case const ty value => exact .const ty value
  case apply op operands => exact .step (.apply op operands)

theorem evolves_of_constructs {pool : Pool} (constructs : before.pool.Constructs pool) :
    before.Evolves ⟨pool, before.memory⟩ := by
  induction constructs with
  | refl => exact .refl
  | @tail middle last _ construction inductionHypothesis =>
    exact inductionHypothesis.tail (@move_of_construction ⟨middle, before.memory⟩ last construction)

theorem Use.evolves (use : before.Use after) : before.Evolves after := by
  rcases use.step_or_constructs with step | ⟨pool, constructs, rfl⟩
  · exact .single (.step step)
  · exact evolves_of_constructs constructs

/-- Rules and walks lead to no workspaces that other operations do not lead to. -/
theorem used_iff_evolved : workspace.Used ↔ workspace.Evolved := by
  constructor
  · rintro ⟨bits, leafKey, uses⟩
    refine ⟨bits, leafKey, ?_⟩
    induction uses with
    | refl => exact .refl
    | tail _ use inductionHypothesis => exact inductionHypothesis.trans use.evolves
  · rintro ⟨bits, leafKey, evolves⟩
    exact ⟨bits, leafKey, Relation.ReflTransGen.mono (fun _ _ move => Use.move move) _ _ evolves⟩

theorem Evolved.used (evolved : workspace.Evolved) : workspace.Used :=
  used_iff_evolved.mpr evolved

theorem Used.coherent (used : workspace.Used) : workspace.Coherent :=
  (used_iff_evolved.mp used).coherent

theorem Used.use (used : before.Used) (use : before.Use after) : after.Used := by
  obtain ⟨bits, leafKey, uses⟩ := used
  exact ⟨bits, leafKey, uses.tail use⟩

theorem Use.extension (use : before.Use after) (coherent : before.Coherent) :
    before.pool.Extends after.pool :=
  (use.evolves.grows coherent).pool.extension

end Evolution

section Reachability

/-- A construction stores an expression of the type that is asked for, or nothing. So it
is a step if all words have positive widths in the end. -/
theorem steps_of_construction {pool : Pool} (construction : before.pool.Construction pool)
    (sized : pool.Sized) : Relation.ReflTransGen Step before ⟨pool, before.memory⟩ := by
  cases construction with
  | var name ty =>
    cases found : before.pool.declared? name with
    | some e => rw [Build.var_final_of_declared found]
    | none =>
      obtain ⟨e, last, ended, -, stored⟩ := (Build.var_grows_of_fresh found).exists_ok
      have isLast : Stateful.final (Build.var name ty) before.pool = last := by
        rw [Stateful.final, ended]
      rw [isLast] at sized
      rw [← Work.final_ofBuild]
      exact .single (.var name (sized ⟨_, stored⟩))
  | const ty value =>
    by_cases admitted : ty.admits value
    · have grows := @Build.leaf_grows before.pool ty value admitted
      obtain ⟨e, last, ended, -, stored⟩ := grows.exists_ok
      have isLast : Stateful.final (Build.const ty value) before.pool = last := by
        rw [Build.const, if_pos admitted, Stateful.final, ended]
      rw [isLast] at sized
      rw [← Work.final_ofBuild]
      exact .single (.const (sized ⟨_, stored⟩) value)
    · have unchanged : Stateful.final (Build.const ty value) before.pool = before.pool := by
        rw [Build.const, if_neg admitted]
        rfl
      rw [unchanged]
  | apply op operands =>
    rw [← Work.final_ofBuild]
    exact .single (.apply op operands)

theorem steps_of_constructs {pool : Pool} (constructs : before.pool.Constructs pool)
    (sized : pool.Sized) : Relation.ReflTransGen Step before ⟨pool, before.memory⟩ := by
  induction constructs with
  | refl => exact .refl
  | @tail middle last _ construction inductionHypothesis =>
    refine (inductionHypothesis (construction.grows.extension.sized sized)).trans ?_
    exact @steps_of_construction ⟨middle, before.memory⟩ last construction sized

theorem Reachable.steps (reachable : before.Reachable) (steps : Relation.ReflTransGen Step before after) :
    after.Reachable := by
  induction steps with
  | refl => exact reachable
  | tail _ step inductionHypothesis => exact .step inductionHypothesis step

/-- The reachable workspaces are those that operations of any kind lead to, as long as all
words have positive widths. -/
theorem reachable_iff : workspace.Reachable ↔ workspace.pool.Sized ∧
    ∃ bits start, empty? bits = .ok start ∧ Relation.ReflTransGen Use start workspace := by
  constructor
  · intro reachable
    refine ⟨reachable.sound.sized, ?_⟩
    induction reachable with
    | @start bits workspace made => exact ⟨bits, workspace, made, .refl⟩
    | step _ step inductionHypothesis =>
      obtain ⟨bits, start, made, uses⟩ := inductionHypothesis
      exact ⟨bits, start, made, uses.tail (.move (.step step))⟩
  · rintro ⟨sized, bits, start, made, uses⟩
    have coherent : ∀ {later}, Relation.ReflTransGen Use start later → later.Coherent := by
      intro later uses
      induction uses with
      | refl => exact (sound_of_empty? made).toCoherent
      | tail _ use inductionHypothesis =>
        exact (use.evolves.grows inductionHypothesis).coherent inductionHypothesis
    induction uses with
    | refl => exact .start made
    | tail uses use inductionHypothesis =>
      have reachable := inductionHypothesis ((use.extension (coherent uses)).sized sized)
      rcases use.step_or_constructs with step | ⟨pool, constructs, rfl⟩
      · exact .step reachable step
      · exact reachable.steps (steps_of_constructs constructs sized)

end Reachability

end Workspace

end Clausal
