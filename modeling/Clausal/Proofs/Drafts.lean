import Mathlib
import Clausal.Proofs.Construction
import Clausal.Proofs.Grammars

/-!
# Drafts and what is built from them

A rule proposes a draft, which is looked at here before it is built. `Draft.Fits`
says that it has a type, and its value and weight are folds over it.
`Draft.build_yields` ties the two sides together: a draft that fits is built, and
what is stored has the type, the value and the weight of the draft. `Draft.Draws`
is about what a draft is made of, and so about the grammars that it follows.
-/

namespace Clausal

namespace Draft

/-- What holds of an application when it holds of its operands holds of all
drafts. -/
theorem induction {motive : Draft → Prop} (known : ∀ e, motive (.known e))
    (const : ∀ ty value, motive (.const ty value))
    (word : ∀ width number, motive (.word width number))
    (apply : ∀ op operands, (∀ operand ∈ operands, motive operand) → motive (.apply op operands))
    (draft : Draft) : motive draft := by
  induction draft using Draft.rec with
  | known e => exact known e
  | const ty value => exact const ty value
  | word width number => exact word width number
  | apply op operands each => exact apply op operands each
  | nil => exact nofun
  | cons operand operands first rest =>
    intro other member
    rcases List.mem_cons.mp member with rfl | member
    · exact first
    · exact rest other member

section Fold

variable {α : Type} (known : ExprId → α) (const : Ty → Value → α) (apply : Op → List α → α)

mutual

/-- Replace the constructors of a draft by functions. -/
def fold : Draft → α
  | .known e => known e
  | .const ty value => const ty value
  | .word width number => const (.uint width) (.uint number)
  | .apply op operands => apply op (foldAll operands)

/-- Replace the constructors of several drafts by functions. -/
def foldAll : List Draft → List α
  | [] => []
  | draft :: drafts => fold draft :: foldAll drafts

end

theorem fold_apply (op : Op) (operands : List Draft) :
    fold known const apply (.apply op operands) =
      apply op (operands.map (fold known const apply)) := by
  have each : foldAll known const apply operands = operands.map (fold known const apply) := by
    induction operands with
    | nil => rfl
    | cons operand operands inductionHypothesis => simp [foldAll, inductionHypothesis]
  rw [fold, each]

end Fold

section Typing

/-- A literal that is stored. -/
def IsLiteral (pool : Pool) : Draft → Prop
  | .known e => pool.isLiteral e
  | _ => False

theorem IsLiteral.mono {before after : Pool} {draft : Draft} (extension : before.Extends after)
    (literal : draft.IsLiteral before) : draft.IsLiteral after := by
  cases draft with
  | known e =>
    change after.isLiteral e
    rwa [extension.isLiteral_eq (Pool.has_of_isLiteral literal)]
  | const | word | apply => exact literal.elim

mutual

/-- A draft has a type in a pool. -/
def Fits (pool : Pool) : Draft → Ty → Prop
  | .known e, ty => pool.HasTy e ty
  | .const own value, ty => own = ty ∧ (pool.Sized → ty.Sized) ∧ ty.admits value
  | .word width number, ty => .uint width = ty ∧ 0 < width ∧ number < 2 ^ width
  | .apply op operands, ty =>
    ∃ types, FitsAll pool operands types ∧ op.Types types ty ∧
      (op = .clause → ∀ operand ∈ operands, operand.IsLiteral pool)

/-- Drafts have types in a pool. -/
def FitsAll (pool : Pool) : List Draft → List Ty → Prop
  | [], types => types = []
  | draft :: drafts, types => ∃ ty rest, Fits pool draft ty ∧ FitsAll pool drafts rest ∧ types = ty :: rest

end

variable {pool before after : Pool} {draft : Draft} {ty : Ty}

theorem fitsAll_iff {drafts : List Draft} {types : List Ty} :
    FitsAll pool drafts types ↔ List.Forall₂ (Fits pool) drafts types := by
  induction drafts generalizing types with
  | nil => simp [FitsAll]
  | cons draft drafts inductionHypothesis =>
    simp only [FitsAll, inductionHypothesis, List.forall₂_cons_left_iff]

theorem fits_apply_iff {op : Op} {operands : List Draft} :
    (apply op operands).Fits pool ty ↔
      ∃ types, List.Forall₂ (Fits pool) operands types ∧ op.Types types ty ∧
        (op = .clause → ∀ operand ∈ operands, operand.IsLiteral pool) := by
  simp only [Fits, fitsAll_iff]

/-- An application to stored expressions fits when it applies. -/
theorem fits_ofKnown_iff {op : Op} {operands : List ExprId} :
    (ofKnown op operands).Fits pool ty ↔ pool.Applies op operands ty := by
  unfold ofKnown
  rw [fits_apply_iff]
  simp only [List.forall₂_map_left_iff, List.mem_map, forall_exists_index, and_imp,
    forall_apply_eq_imp_iff₂]
  constructor
  · rintro ⟨types, each, typed, literals⟩
    exact ⟨⟨types, each, typed⟩, literals⟩
  · rintro ⟨⟨types, each, typed⟩, literals⟩
    exact ⟨types, each, typed, literals⟩

/-- A draft that fits does so in every later pool. -/
theorem Fits.mono (extension : before.Extends after) (fits : draft.Fits before ty) :
    draft.Fits after ty := by
  induction draft using Draft.induction generalizing ty with
  | known e => exact extension.hasTy fits
  | const own value =>
    obtain ⟨same, sized, admitted⟩ := fits
    exact ⟨same, fun later => sized (extension.sized later), admitted⟩
  | word width number => exact fits
  | apply op operands inductionHypothesis =>
    obtain ⟨types, each, typed, literals⟩ := fits_apply_iff.mp fits
    exact fits_apply_iff.mpr ⟨types,
      forall₂_imp_of_mem each fun operand member _ => inductionHypothesis operand member,
      typed, fun isClause operand member => (literals isClause operand member).mono extension⟩

/-- A draft has one type. -/
theorem Fits.unique {other : Ty} (fits : draft.Fits pool ty) (otherFits : draft.Fits pool other) :
    ty = other := by
  induction draft using Draft.induction generalizing ty other with
  | known e => exact Pool.HasTy.unique fits otherFits
  | const own value => exact fits.1.symm.trans otherFits.1
  | word width number => exact fits.1.symm.trans otherFits.1
  | apply op operands inductionHypothesis =>
    obtain ⟨types, each, typed, -⟩ := fits_apply_iff.mp fits
    obtain ⟨otherTypes, otherEach, otherTyped, -⟩ := fits_apply_iff.mp otherFits
    have same : List.Forall₂ Eq types otherTypes :=
      forall₂_join each otherEach fun operand member _ _ => inductionHypothesis operand member
    obtain rfl := List.forall₂_eq_eq_eq ▸ same
    exact typed.unique otherTyped

end Typing

section Building

variable {pool before after : Pool} {draft : Draft} {ty : Ty} {e : ExprId}

/-- A stored expression is what a draft describes. -/
def Realizes (pool : Pool) (draft : Draft) : ExprId → Prop :=
  draft.fold (fun known e => e = known) (fun ty value e => pool.node? e = some ⟨ty, .const value⟩)
    fun op parts e => ∃ ty operands, pool.node? e = some ⟨ty, .apply op operands⟩ ∧
      List.Forall₂ (fun part operand => part operand) parts operands

theorem realizes_apply_iff {op : Op} {drafts : List Draft} :
    (apply op drafts).Realizes pool e ↔
      ∃ ty operands, pool.node? e = some ⟨ty, .apply op operands⟩ ∧
        List.Forall₂ (Realizes pool) drafts operands := by
  unfold Realizes
  simp only [fold_apply, List.forall₂_map_left_iff]

theorem realizes_ofKnown_iff {op : Op} {operands : List ExprId} :
    (ofKnown op operands).Realizes pool e ↔
      ∃ ty, pool.node? e = some ⟨ty, .apply op operands⟩ := by
  unfold ofKnown
  rw [realizes_apply_iff]
  have each : ∀ others, List.Forall₂ (Realizes pool) (operands.map .known) others ↔
      others = operands := by
    intro others
    rw [List.forall₂_map_left_iff]
    change List.Forall₂ (fun known e => e = known) operands others ↔ _
    simp only [eq_comm, List.forall₂_eq_eq_eq]
  simp only [each, exists_eq_right]

theorem Realizes.mono (extension : before.Extends after) (realizes : draft.Realizes before e) :
    draft.Realizes after e := by
  induction draft using Draft.induction generalizing e with
  | known e => exact realizes
  | const ty value => exact extension realizes
  | word width number => exact extension realizes
  | apply op operands inductionHypothesis =>
    obtain ⟨ty, stored, found, each⟩ := realizes_apply_iff.mp realizes
    exact realizes_apply_iff.mpr ⟨ty, stored, extension found,
      forall₂_imp_of_mem each fun operand member _ => inductionHypothesis operand member⟩

theorem IsLiteral.of_realizes (literal : draft.IsLiteral pool) (realizes : draft.Realizes pool e) :
    pool.isLiteral e := by
  cases draft with
  | known known =>
    obtain rfl : e = known := realizes
    exact literal
  | const | word | apply => exact literal.elim

section Rank

/-- Whatever is stored for a draft has a rank up to a bound. -/
def RankAtMost (pool : Pool) (bound : Nat) (draft : Draft) : Prop :=
  ∀ ⦃after : Pool⦄ ⦃e : ExprId⦄, pool.Extends after → draft.Realizes after e → after.rank e ≤ bound

theorem rankAtMost_known {bound : Nat} (stored : pool.Has e) (low : pool.rank e ≤ bound) :
    (known e).RankAtMost pool bound := by
  rintro after _ extension rfl
  rwa [extension.rank_eq stored]

/-- The operands of what is stored for an application have the ranks of its parts. -/
theorem rank_le_of_realizes {op : Op} {parts : List Draft} {bound : Nat}
    (each : ∀ part ∈ parts, part.RankAtMost pool bound) (extension : pool.Extends after)
    (realizes : (apply op parts).Realizes after e) :
    ∀ operand ∈ after.operands e, after.rank operand ≤ bound := by
  obtain ⟨ty, built, found, builtOf⟩ := realizes_apply_iff.mp realizes
  intro operand member
  rw [Pool.operands_of_node? found] at member
  obtain ⟨part, partMember, partRealizes⟩ := exists_of_forall₂_of_mem builtOf.flip member
  exact each part partMember extension partRealizes

theorem rankAtMost_apply {op : Op} {parts : List Draft} {bound : Nat}
    (cheap : ∀ ty, op.rankCost ty = 1) (each : ∀ part ∈ parts, part.RankAtMost pool bound) :
    (apply op parts).RankAtMost pool (1 + bound) := by
  intro after e extension realizes
  have below := rank_le_of_realizes each extension realizes
  obtain ⟨ty, built, found, -⟩ := realizes_apply_iff.mp realizes
  rw [Pool.operands_of_node? found, Node.operands_apply] at below
  rw [Pool.rank_apply found, cheap]
  exact Nat.add_le_add_left (Pool.peak_le_iff.mpr below) 1

end Rank

/-- A draft that fits is built, at its type. -/
theorem build_realizes (fits : draft.Fits pool ty) :
    Build.Yields draft.build pool fun e after => draft.Realizes after e ∧ after.HasTy e ty := by
  induction draft using Draft.induction generalizing pool ty with
  | known e => exact Stateful.Yields.pure ⟨rfl, fits⟩
  | const own value =>
    obtain ⟨rfl, sized, admitted⟩ := fits
    exact (Build.const_yields sized admitted).mono fun e after _ stored => ⟨stored, _, stored⟩
  | word width number =>
    obtain ⟨rfl, positive, small⟩ := fits
    exact (Build.word_yields positive small).mono fun e after _ stored => ⟨stored, _, stored⟩
  | apply op operands inductionHypothesis =>
    obtain ⟨types, each, typed, literals⟩ := fits_apply_iff.mp fits
    rw [build_apply]
    refine Stateful.Yields.bind (Stateful.Yields.mapM (fun operand e after =>
      operand.Realizes after e ∧ ∀ operandTy, operand.Fits pool operandTy →
        after.HasTy e operandTy) ?stable ?each) ?combine
    case stable =>
      rintro operand e before after advances ⟨realizes, hasTy⟩
      exact ⟨realizes.mono advances.extension, fun operandTy operandFits =>
        advances.extension.hasTy (hasTy operandTy operandFits)⟩
    case each =>
      intro operand member after advances
      obtain ⟨operandTy, -, operandFits⟩ := exists_of_forall₂_of_mem each member
      refine (inductionHypothesis operand member (operandFits.mono advances.extension)).mono ?_
      rintro e final - ⟨realizes, hasTy⟩
      exact ⟨realizes, fun other otherFits => operandFits.unique otherFits ▸ hasTy⟩
    case combine =>
      intro built after advances realized
      have hasTys : List.Forall₂ after.HasTy built types :=
        forall₂_join realized each fun _ _ _ _ found operandFits => found.2 _ operandFits
      have isLiterals : op = .clause → ∀ e ∈ built, after.isLiteral e := by
        intro isClause e member
        obtain ⟨operand, operandMember, realizes, -⟩ := exists_of_forall₂_of_mem realized.flip member
        exact ((literals isClause operand operandMember).mono advances.extension).of_realizes realizes
      refine (Build.apply_yields ⟨⟨types, hasTys, typed⟩, isLiterals⟩).mono ?_
      intro e final later stored
      refine ⟨realizes_apply_iff.mpr ⟨ty, built, stored, ?_⟩, _, stored⟩
      exact realized.imp fun _ _ found => found.1.mono later.extension

end Building

section Measures

variable (pool : Pool) (env : Env)

/-- The value of a draft. -/
def value : Draft → Except EvalError Value :=
  fold (fun e => pool.evaluate e env) (fun _ value => .ok value) fun op parts => do
    let values ← parts.mapM id
    (op.eval values).mapError .fault

/-- The weight of a draft. -/
def weight : Draft → Nat :=
  fold pool.weight (fun _ _ => 1) fun op parts => op.weightCost + total id parts

variable {pool env} {before after : Pool} {draft : Draft} {ty : Ty} {e : ExprId}

@[simp] theorem value_known : (known e).value pool env = pool.evaluate e env := rfl

@[simp] theorem value_const {value : Value} : (const ty value).value pool env = .ok value := rfl

@[simp] theorem value_truth {truth : Bool} :
    (Draft.truth truth).value pool env = .ok (.bool truth) := rfl

@[simp] theorem value_word {width number : Nat} :
    (word width number).value pool env = .ok (.uint number) := rfl

theorem value_apply {op : Op} {operands : List Draft} {value : Value} :
    (apply op operands).value pool env = .ok value ↔
      ∃ values, List.Forall₂ (fun operand value => operand.value pool env = .ok value) operands
        values ∧ op.eval values = .ok value := by
  unfold Draft.value
  simp only [fold_apply, bind_eq_ok_iff, mapError_eq_ok_iff, mapM_eq_ok_iff,
    List.forall₂_map_left_iff, id]

theorem value_ofKnown {op : Op} {operands : List ExprId} {value : Value} :
    (ofKnown op operands).value pool env = .ok value ↔
      ∃ values, List.Forall₂ (fun operand value => pool.evaluate operand env = .ok value) operands
        values ∧ op.eval values = .ok value := by
  simp only [ofKnown, value_apply, List.forall₂_map_left_iff, value_known]

@[simp] theorem weight_known : (known e).weight pool = pool.weight e := rfl

@[simp] theorem weight_const {value : Value} : (const ty value).weight pool = 1 := rfl

@[simp] theorem weight_truth {truth : Bool} : (Draft.truth truth).weight pool = 1 := rfl

@[simp] theorem weight_word {width number : Nat} : (word width number).weight pool = 1 := rfl

@[simp] theorem weight_apply {op : Op} {operands : List Draft} :
    (apply op operands).weight pool = op.weightCost + total (weight pool) operands := by
  unfold Draft.weight
  rw [fold_apply, total_map]
  rfl

@[simp] theorem weight_ofKnown {op : Op} {operands : List ExprId} :
    (ofKnown op operands).weight pool = op.weightCost + total pool.weight operands := by
  simp only [ofKnown, weight_apply, total_map, weight_known]

section Transport

variable {α : Type} {measure other : ExprId → α} {const : Ty → Value → α} {apply : Op → List α → α}

/-- A fold over a draft that fits looks at stored expressions only. -/
theorem Fits.fold_congr (fits : draft.Fits pool ty)
    (same : ∀ e, pool.Has e → measure e = other e) :
    draft.fold measure const apply = draft.fold other const apply := by
  induction draft using Draft.induction generalizing ty with
  | known e => exact same e (Pool.HasTy.has fits)
  | const own value => rfl
  | word width number => rfl
  | apply op operands inductionHypothesis =>
    obtain ⟨types, each, -, -⟩ := fits_apply_iff.mp fits
    rw [fold_apply, fold_apply]
    refine congrArg _ (List.map_congr_left fun operand member => ?_)
    obtain ⟨operandTy, -, operandFits⟩ := exists_of_forall₂_of_mem each member
    exact inductionHypothesis operand member operandFits

/-- A measure that is computed from the top node is the fold over a draft that
describes the expression. -/
theorem Realizes.fold_eq (realizes : draft.Realizes pool e)
    (onConst : ∀ e ty value, pool.node? e = some ⟨ty, .const value⟩ → measure e = const ty value)
    (onApply : ∀ e ty op operands, pool.node? e = some ⟨ty, .apply op operands⟩ →
      measure e = apply op (operands.map measure)) :
    draft.fold measure const apply = measure e := by
  induction draft using Draft.induction generalizing e with
  | known known => exact congrArg measure (Eq.symm realizes)
  | const ty value => exact (onConst e ty value realizes).symm
  | word width number => exact (onConst e _ _ realizes).symm
  | apply op drafts inductionHypothesis =>
    obtain ⟨ty, operands, stored, each⟩ := realizes_apply_iff.mp realizes
    rw [fold_apply, onApply e ty op operands stored]
    refine congrArg _ (List.forall₂_eq_eq_eq ▸ ?_)
    rw [List.forall₂_map_left_iff, List.forall₂_map_right_iff]
    exact forall₂_imp_of_mem each fun draft member _ => inductionHypothesis draft member

end Transport

/-- A draft of a type, which fits a pool, is stored as an expression of a later
one. -/
structure Stores (pool : Pool) (draft : Draft) (ty : Ty) (e : ExprId) (after : Pool) : Prop where
  realizes : draft.Realizes after e
  hasTy : after.HasTy e ty
  evaluate_eq : ∀ env, after.evaluate e env = draft.value pool env
  weight_eq : after.weight e = draft.weight pool

/-- What is stored for a draft stays so. -/
theorem Stores.mono (extension : before.Extends after) (stores : draft.Stores pool ty e before) :
    draft.Stores pool ty e after := by
  have stored := stores.hasTy.has
  exact ⟨stores.realizes.mono extension, extension.hasTy stores.hasTy,
    fun env => (extension.evaluate_eq stored).trans (stores.evaluate_eq env),
    (extension.weight_eq stored).trans stores.weight_eq⟩

/-- What is stored for a draft in a pool is so for the draft in an earlier pool. -/
theorem Stores.earlier {middle : Pool} (extension : pool.Extends middle) (fits : draft.Fits pool ty)
    (stores : draft.Stores middle ty e after) : draft.Stores pool ty e after := by
  refine ⟨stores.realizes, stores.hasTy, fun env => (stores.evaluate_eq env).trans ?_,
    stores.weight_eq.trans ?_⟩
  · exact (fits.fold_congr fun e stored => (extension.evaluate_eq stored).symm).symm
  · exact (fits.fold_congr fun e stored => (extension.weight_eq stored).symm).symm

/-- A draft that fits is built, and its measures are those of what is stored. -/
theorem build_yields (fits : draft.Fits pool ty) :
    Build.Yields draft.build pool (draft.Stores pool ty) := by
  refine (build_realizes fits).mono ?_
  rintro e after advances ⟨realizes, hasTy⟩
  have extension := advances.extension
  refine ⟨realizes, hasTy, fun env => ?_, ?_⟩
  · unfold value
    rw [fits.fold_congr fun e stored => (extension.evaluate_eq stored).symm]
    refine (realizes.fold_eq (fun e ty value stored => Pool.evaluate_const stored) ?_).symm
    intro e ty op operands stored
    rw [Pool.evaluate_apply_eq stored, List.mapM_map]
    rfl
  · unfold weight
    rw [fits.fold_congr fun e stored => (extension.weight_eq stored).symm]
    refine (realizes.fold_eq (fun e ty value stored => Pool.weight_eq_one stored rfl) ?_).symm
    intro e ty op operands stored
    rw [Pool.weight_apply stored, total_map]
    rfl

/-- A draft is built if there is one. -/
theorem build?_yields {proposal : Option Draft}
    (fits : ∀ draft, proposal = some draft → draft.Fits pool ty) :
    Build.Yields (build? proposal) pool fun result after =>
      (proposal = none ∧ result = none ∧ after = pool) ∨
        ∃ draft e, proposal = some draft ∧ result = some e ∧ draft.Stores pool ty e after := by
  cases proposal with
  | none => exact Stateful.Yields.pure (.inl ⟨rfl, rfl, rfl⟩)
  | some draft =>
    refine (build_yields (fits draft rfl)).bind fun e after _ stores => ?_
    exact Stateful.Yields.pure (.inr ⟨draft, e, rfl, rfl, stores⟩)

/-- Drafts for the numbers below a count are built one after the other. -/
theorem collect_yields {draft : Nat → Draft} {count : Nat}
    (fits : ∀ index < count, (draft index).Fits pool ty) :
    Build.Yields (Build.collect count fun index => (draft index).build) pool fun row after =>
      List.Forall₂ (fun index e => (draft index).Stores pool ty e after) (List.range count) row := by
  rw [Build.collect_eq]
  refine Stateful.Yields.mapM (fun index e after => (draft index).Stores pool ty e after) ?_ ?_
  · exact fun index e before after advances stores => stores.mono advances.extension
  · intro index member after advances
    have fitting := fits index (List.mem_range.mp member)
    exact (build_yields (fitting.mono advances.extension)).mono fun e final _ stores =>
      stores.earlier advances.extension fitting

end Measures

section Origin

variable {pool : Pool} {draft : Draft} {ty : Ty} {e : ExprId} {source other : ExprId → Prop}
  {brings others : Op → Prop}

/-- A draft is put together from stored expressions of one kind with operators of
another. -/
def Draws (source : ExprId → Prop) (brings : Op → Prop) : Draft → Prop :=
  fold source (fun _ _ => True) fun op parts => brings op ∧ ∀ part ∈ parts, part

@[simp] theorem draws_known : (known e).Draws source brings ↔ source e := Iff.rfl

@[simp] theorem draws_const {value : Value} : (const ty value).Draws source brings := trivial

@[simp] theorem draws_truth {truth : Bool} : (Draft.truth truth).Draws source brings := trivial

@[simp] theorem draws_word {width number : Nat} : (word width number).Draws source brings := trivial

@[simp] theorem draws_apply {op : Op} {operands : List Draft} :
    (apply op operands).Draws source brings ↔
      brings op ∧ ∀ operand ∈ operands, operand.Draws source brings := by
  unfold Draws
  rw [fold_apply, List.forall_mem_map]

@[simp] theorem draws_ofKnown {op : Op} {operands : List ExprId} :
    (ofKnown op operands).Draws source brings ↔ brings op ∧ ∀ operand ∈ operands, source operand := by
  simp [ofKnown]

@[simp] theorem draws_negation :
    (negation e).Draws source brings ↔ brings .not ∧ source e := by
  simp [negation]

theorem Draws.imp (draws : draft.Draws source brings) (known : ∀ e, source e → other e)
    (fresh : ∀ op, brings op → others op) : draft.Draws other others := by
  induction draft using Draft.induction with
  | known e => exact known e draws
  | const | word => trivial
  | apply op operands inductionHypothesis =>
    obtain ⟨brought, each⟩ := draws_apply.mp draws
    exact draws_apply.mpr ⟨fresh op brought, fun operand member =>
      inductionHypothesis operand member (each operand member)⟩

/-- A draft follows a grammar if what it is drawn from does. -/
theorem Draws.follows {grammar : Grammar} (draws : draft.Draws source brings)
    (realizes : draft.Realizes pool e) (known : ∀ e, source e → pool.Follows grammar e)
    (fresh : ∀ op, brings op → grammar.operator op ∧ ∀ x, grammar.operand pool op x) :
    pool.Follows grammar e := by
  induction draft using Draft.induction generalizing e with
  | known stored =>
    obtain rfl : e = stored := realizes
    exact known e draws
  | const ty value | word width number =>
    refine Pool.everywhere_leaf ?_
    have stored : pool.node? e = some ⟨_, .const _⟩ := realizes
    simp [Pool.op?, stored, Node.op?]
  | apply op parts inductionHypothesis =>
    obtain ⟨brought, each⟩ := draws_apply.mp draws
    obtain ⟨ty, operands, stored, realized⟩ := realizes_apply_iff.mp realizes
    obtain ⟨permitted, anything⟩ := fresh op brought
    refine (Pool.everywhere_apply stored).mpr ⟨⟨permitted, fun operand _ => anything operand⟩, ?_⟩
    intro operand member
    obtain ⟨part, partMember, partRealizes⟩ := exists_of_forall₂_of_mem realized.flip member
    exact inductionHypothesis part partMember (each part partMember) partRealizes

end Origin

end Draft

end Clausal
