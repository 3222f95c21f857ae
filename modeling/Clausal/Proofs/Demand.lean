import Mathlib
import Clausal.Proofs.Compilation
import Clausal.Proofs.Confluence
import Clausal.Proofs.Domains
import Clausal.Proofs.Settled

/-!
# How many variables a session needs

Lowering makes variables for the bits of variables, for gates, and for the literal known to
be true. `Tree.demand` counts them along the tree of an expression, so that a shared part
counts as often as it occurs. A session never makes more than that, whether lowering
succeeds or fails (`lower_allots`, `assert_allots`), and the order of operands does not
matter to the count.

For constraints this bounds the variables that compilation makes by the demand of their
normal forms and of their variables (`Solve.allocated_le`), and so tells in advance when
there are few enough of them to be numbered.
-/

namespace Clausal

section Largest

variable {numbers others : List Nat}

theorem foldl_max_perm (perm : numbers.Perm others) : numbers.foldl max 0 = others.foldl max 0 :=
  perm.foldl_eq 0

theorem le_foldl_max {number : Nat} (member : number ∈ numbers) : number ≤ numbers.foldl max 0 :=
  (foldl_max_le_iff.mp le_rfl).2 number member

theorem foldl_max_le_foldl_max (each : List.Forall₂ (· ≤ ·) numbers others) :
    numbers.foldl max 0 ≤ others.foldl max 0 := by
  rw [foldl_max_le_iff]
  refine ⟨Nat.zero_le _, fun number member => ?_⟩
  obtain ⟨other, isOther, le⟩ := exists_of_forall₂_of_mem each member
  exact le.trans (le_foldl_max isOther)

theorem total_const {α : Type} (items : List α) (size : Nat) :
    total (fun _ => size) items = items.length * size := by
  induction items with
  | nil => exact (Nat.zero_mul size).symm
  | cons item items inductionHypothesis =>
    rw [total_cons, inductionHypothesis, List.length_cons, Nat.succ_mul, Nat.add_comm]

theorem total_id_le (each : List.Forall₂ (· ≤ ·) numbers others) : total id numbers ≤ total id others :=
  total_le_total each.flip

end Largest

namespace Op

/-- The number of literals of an application, from those of its operands. A field has no
more than its tuple. -/
def width (widths : List Nat) : Op → Nat
  | .bits | .tuple => total id widths
  | .field _ => widths.foldl max 0
  | _ => 1

/-- The number of variables that are made for an application itself. An equation compares
its operands bit by bit. -/
def gates (widths : List Nat) : Op → Nat
  | .and | .or | .clause | .xor => 1
  | .eq => widths.foldl max 0 + 1
  | _ => 0

variable {widths others : List Nat}

theorem width_le_width (op : Op) (each : List.Forall₂ (· ≤ ·) widths others) :
    op.width widths ≤ op.width others := by
  cases op <;> simp only [width, le_refl, total_id_le each, foldl_max_le_foldl_max each]

theorem gates_le_gates (op : Op) (each : List.Forall₂ (· ≤ ·) widths others) :
    op.gates widths ≤ op.gates others := by
  cases op <;> simp only [gates, le_refl, Nat.add_le_add_right (foldl_max_le_foldl_max each)]

theorem width_perm (op : Op) (perm : widths.Perm others) : op.width widths = op.width others := by
  cases op <;> simp only [width, total_eq_of_perm perm, foldl_max_perm perm]

theorem gates_perm (op : Op) (perm : widths.Perm others) : op.gates widths = op.gates others := by
  cases op <;> simp only [gates, foldl_max_perm perm]

end Op

namespace Tree

mutual

/-- The number of literals that an expression is lowered to, at most. -/
def width : Tree → Nat
  | .var ty _ | .const ty _ => ty.bitSize
  | .apply op operands => op.width (widths operands)

/-- The number of literals of each of several expressions. -/
def widths : List Tree → List Nat
  | [] => []
  | tree :: rest => tree.width :: widths rest

end

mutual

/-- The number of variables that are made for an expression, at most. -/
def demand : Tree → Nat
  | .var ty _ => ty.bitSize
  | .const _ _ => 1
  | .apply op operands => op.gates (widths operands) + demands operands

/-- The number of variables that are made for several expressions. -/
def demands : List Tree → Nat
  | [] => 0
  | tree :: rest => tree.demand + demands rest

end

theorem widths_eq_map (trees : List Tree) : widths trees = trees.map width := by
  induction trees with
  | nil => rfl
  | cons tree rest inductionHypothesis => rw [widths, List.map_cons, inductionHypothesis]

theorem demands_eq_total (trees : List Tree) : demands trees = total demand trees := by
  induction trees with
  | nil => rfl
  | cons tree rest inductionHypothesis => rw [demands, total_cons, inductionHypothesis]

/-- The order of operands does not matter. -/
theorem Permutes.demand_eq {s t : Tree} (permutes : s.Permutes t) :
    s.width = t.width ∧ s.demand = t.demand := by
  induction permutes with
  | @here op xs ys _ perm =>
    simp only [width, demand, widths_eq_map, demands_eq_total]
    have widths := perm.map width
    exact ⟨op.width_perm widths, by rw [op.gates_perm widths, total_eq_of_perm perm]⟩
  | @inside op front rest x y _ inductionHypothesis =>
    obtain ⟨sameWidth, sameDemand⟩ := inductionHypothesis
    simp only [width, demand, widths_eq_map, demands_eq_total, List.map_append, List.map_cons,
      total_append, total_cons, sameWidth, sameDemand, and_self]

theorem Rearranges.demand_eq {s t : Tree} (rearranges : s.Rearranges t) : s.demand = t.demand := by
  induction rearranges with
  | refl => rfl
  | tail _ step inductionHypothesis => exact inductionHypothesis.trans step.demand_eq.2

end Tree

namespace Pool

variable {pool : Pool} {e : ExprId} {ty : Ty} {op : Op} {operands : List ExprId}
  (stored : pool.node? e = some ⟨ty, .apply op operands⟩)
include stored

theorem width_tree_apply :
    (pool.tree e).width = op.width (operands.map fun operand => (pool.tree operand).width) := by
  rw [tree_apply stored, Tree.width, Tree.widths_eq_map, List.map_map]
  rfl

theorem demand_tree_apply :
    (pool.tree e).demand = op.gates (operands.map fun operand => (pool.tree operand).width) +
      total (fun operand => (pool.tree operand).demand) operands := by
  rw [tree_apply stored, Tree.demand, Tree.widths_eq_map, Tree.demands_eq_total, List.map_map, total_map]
  rfl

end Pool

namespace Session

/-- Every expression that was lowered is stored and has no more literals than its tree
allows. -/
def Narrow (session : Session) (pool : Pool) : Prop :=
  ∀ (e : ExprId) lits, session.literals[e]? = some lits → pool.Has e ∧ lits.size ≤ (pool.tree e).width

theorem narrow_start (flatten : Bool) (pool : Pool) : (start flatten).Narrow pool := by
  intro e lits found
  simp [start] at found

theorem Narrow.extend {session : Session} {before after : Pool} (narrow : session.Narrow before)
    (extension : before.Extends after) : session.Narrow after := by
  intro e lits found
  obtain ⟨stored, le⟩ := narrow e lits found
  exact ⟨extension.has stored, by rwa [extension.tree_eq stored]⟩

end Session

namespace Lower

variable {α β : Type} {pool : Pool} {e : ExprId} {bound more : Nat}

attribute [local irreducible] Lit.ofVar

/-- An action makes at most `bound` variables, whether it succeeds or fails. If it succeeds,
`done` holds of its result. -/
def Allots (pool : Pool) (action : Lower α) (bound : Nat) (done : α → Prop) : Prop :=
  ∀ session : Session, session.Narrow pool →
    Stateful.Meets action session
      (fun result after =>
        after.Narrow pool ∧ after.numVars ≤ session.numVars + bound ∧ done result)
      fun _ after => after.numVars ≤ session.numVars + bound

section Rules

variable {action : Lower α} {next : α → Lower β} {middle : α → Prop} {done : β → Prop}

theorem Allots.mono {weaker : α → Prop} (allots : Allots pool action bound middle) (le : bound ≤ more)
    (weakens : ∀ result, middle result → weaker result) : Allots pool action more weaker := by
  intro session narrow
  refine (allots session narrow).mono ?_ fun _ after few => by omega
  rintro result after ⟨later, few, holds⟩
  exact ⟨later, by omega, weakens result holds⟩

theorem Allots.bind (first : Allots pool action bound middle)
    (rest : ∀ result, middle result → Allots pool (next result) more done) :
    Allots pool (action >>= next) (bound + more) done := by
  intro session narrow
  rw [Stateful.meets_bind]
  refine (first session narrow).mono ?_ fun _ after few => by omega
  rintro result after ⟨later, few, holds⟩
  refine (rest result holds after later).mono ?_ fun _ last further => by omega
  rintro other last ⟨lastNarrow, further, isDone⟩
  exact ⟨lastNarrow, by omega, isDone⟩

theorem Allots.bind_left (first : Allots pool action bound middle)
    (rest : ∀ result, middle result → Allots pool (next result) 0 done) :
    Allots pool (action >>= next) bound done :=
  first.bind rest

theorem Allots.bind_right (first : Allots pool action 0 middle)
    (rest : ∀ result, middle result → Allots pool (next result) more done) :
    Allots pool (action >>= next) more done :=
  (first.bind rest).mono (Nat.zero_add more).le fun _ => id

theorem Allots.get {next : Session → Lower β}
    (rest : ∀ session : Session, Allots pool (next session) bound done) :
    Allots pool (MonadState.get >>= next) bound done :=
  fun session narrow => rest session session narrow

theorem allots_pure {result : β} (holds : done result) : Allots pool (pure result) 0 done :=
  fun _ narrow => ⟨narrow, le_rfl, holds⟩

theorem allots_throw (failure : Failure LowerError) : Allots pool (throw failure) 0 done :=
  fun _ _ => le_rfl

theorem allots_ofExcept {source : Except Fault α} (holds : ∀ result, source = .ok result → middle result) :
    Allots pool (Stateful.ofExcept source) 0 middle := by
  cases source with
  | ok result => exact allots_pure (holds result rfl)
  | error fault => exact allots_throw (.fault fault)

/-- A change of neither the variables nor the lowered expressions. -/
theorem allots_modify {change : Session → Session}
    (numVars_eq : ∀ session, (change session).numVars = session.numVars)
    (literals_eq : ∀ session, (change session).literals = session.literals) :
    Allots pool (modify change) 0 fun _ => True := by
  intro session narrow
  refine ⟨?_, (numVars_eq session).le, trivial⟩
  unfold Session.Narrow
  rwa [literals_eq session]

theorem allots_mapM {items : List α} {step : α → Lower β} {cost : α → Nat} {related : α → β → Prop}
    (each : ∀ item ∈ items, Allots pool (step item) (cost item) (related item)) :
    Allots pool (items.mapM step) (total cost items) fun results =>
      List.Forall₂ related items results := by
  induction items with
  | nil => exact allots_pure .nil
  | cons item items inductionHypothesis =>
    rw [List.forall_mem_cons] at each
    rw [List.mapM_cons, total_cons]
    refine each.1.bind fun result holds => ?_
    exact ((inductionHypothesis each.2).bind fun results others =>
      allots_pure (.cons holds others)).mono le_rfl fun _ => id

theorem allots_forM {items : List α} {step : α → Lower PUnit} {cost : α → Nat}
    (each : ∀ item ∈ items, Allots pool (step item) (cost item) fun _ => True) :
    Allots pool (items.forM step) (total cost items) fun _ => True := by
  induction items with
  | nil => exact allots_pure trivial
  | cons item items inductionHypothesis =>
    rw [List.forall_mem_cons] at each
    rw [total_cons]
    exact each.1.bind fun _ _ => inductionHypothesis each.2

theorem allots_mapM_free {items : List α} {step : α → Lower β}
    (each : ∀ item, Allots pool (step item) 0 fun _ => True) :
    Allots pool (items.mapM step) 0 fun _ => True :=
  (allots_mapM fun item _ => each item).mono (total_const items 0).le fun _ _ => trivial

theorem allots_forM_free {items : List α} {step : α → Lower PUnit}
    (each : ∀ item, Allots pool (step item) 0 fun _ => True) :
    Allots pool (items.forM step) 0 fun _ => True :=
  (allots_forM fun item _ => each item).mono (total_const items 0).le fun _ => id

end Rules

section Gates

theorem fresh_allots : Allots pool fresh 1 fun _ => True := by
  intro session narrow
  exact meets_fresh_of_forall (fun _ _ => ⟨narrow, le_rfl, trivial⟩) fun _ _ => le_rfl

theorem neg_allots (lit : Lit) : Allots pool (neg lit) 0 fun _ => True :=
  allots_ofExcept fun _ _ => trivial

theorem keep_allots (clause : Clause) : Allots pool (keep clause) 0 fun _ => True :=
  allots_modify (fun _ => rfl) fun _ => rfl

theorem addClause_allots (lits : Clause) : Allots pool (addClause lits) 0 fun _ => True := by
  refine .get fun session => (allots_ofExcept fun _ _ => trivial).bind_right fun normal _ => ?_
  cases normal with
  | none => exact allots_pure trivial
  | some clause => exact keep_allots clause

theorem top_allots : Allots pool top 1 fun _ => True := by
  refine .get fun session => ?_
  cases session.top with
  | some lit => exact (allots_pure trivial).mono zero_le_one fun _ => id
  | none =>
    refine fresh_allots.bind_left fun lit _ => ?_
    have named : Allots pool (modify fun session => { session with top := some lit }) 0 fun _ => True :=
      allots_modify (fun _ => rfl) fun _ => rfl
    refine named.bind_right fun _ _ => ?_
    exact (keep_allots [lit]).bind_right fun _ _ => allots_pure trivial

theorem andGate_allots (inputs : List Lit) : Allots pool (andGate inputs) 1 fun _ => True := by
  unfold andGate
  split
  · exact (allots_pure trivial).mono zero_le_one fun _ => id
  · refine fresh_allots.bind_left fun out _ => (neg_allots out).bind_right fun notOut _ => ?_
    refine (allots_forM_free fun input => addClause_allots _).bind_right fun _ _ => ?_
    refine (allots_mapM_free neg_allots).bind_right fun _ _ => ?_
    exact (addClause_allots _).bind_right fun _ _ => allots_pure trivial

theorem orGate_allots (inputs : List Lit) : Allots pool (orGate inputs) 1 fun _ => True := by
  unfold orGate
  split
  · exact (allots_pure trivial).mono zero_le_one fun _ => id
  · refine fresh_allots.bind_left fun out _ => ?_
    refine (allots_forM_free fun input => (neg_allots input).bind_right fun _ _ =>
      addClause_allots _).bind_right fun _ _ => ?_
    refine (neg_allots out).bind_right fun _ _ => ?_
    exact (addClause_allots _).bind_right fun _ _ => allots_pure trivial

theorem xorGate_allots (a b : Lit) : Allots pool (xorGate a b) 1 fun _ => True := by
  refine fresh_allots.bind_left fun out _ => (neg_allots out).bind_right fun notOut _ => ?_
  refine (neg_allots a).bind_right fun notA _ => (neg_allots b).bind_right fun notB _ => ?_
  refine (addClause_allots _).bind_right fun _ _ => (addClause_allots _).bind_right fun _ _ => ?_
  refine (addClause_allots _).bind_right fun _ _ => (addClause_allots _).bind_right fun _ _ => ?_
  exact allots_pure trivial

theorem agreement_allots (x y : Lit) : Allots pool (agreement x y) 1 fun _ => True :=
  (xorGate_allots x y).bind_left fun differ _ => neg_allots differ

theorem agreements_allots (xs ys : Array Lit) :
    Allots pool (agreements xs ys) (max xs.size ys.size) fun _ => True := by
  have each : ∀ pair ∈ xs.toList.zip ys.toList, Allots pool (agreement pair.1 pair.2) 1 fun _ => True :=
    fun pair _ => agreement_allots pair.1 pair.2
  refine (allots_mapM each).mono ?_ fun _ _ => trivial
  rw [total_const, Nat.mul_one, List.length_zip, Array.length_toList, Array.length_toList]
  exact min_le_max

theorem variableBits_allots (e : ExprId) (ty : Ty) :
    Allots pool (variableBits e ty) ty.bitSize fun lits => lits.size = ty.bitSize := by
  have each : ∀ index ∈ List.range ty.bitSize, Allots pool fresh 1 fun _ => True :=
    fun _ _ => fresh_allots
  refine ((allots_mapM each).mono (by simp [total_const]) fun _ => id).bind_left fun lits made => ?_
  have noted : Allots pool (modify fun session =>
      { session with surface := session.surface.push (e, lits.toArray) }) 0 fun _ => True :=
    allots_modify (fun _ => rfl) fun _ => rfl
  exact noted.bind_right fun _ _ => allots_pure (by simp [← made.length_eq])

theorem constantBits_allots (ty : Ty) (value : Value) :
    Allots pool (constantBits ty value) 1 fun lits => lits.size = ty.bitSize := by
  refine top_allots.bind_left fun yes _ => (neg_allots yes).bind_right fun no _ => ?_
  refine (allots_ofExcept fun bits => id).bind_right fun bits read => allots_pure ?_
  obtain ⟨admitted, rfl⟩ := Ty.toBits_eq_ok_iff.mp read
  simp [Ty.length_encode ty value admitted]

theorem sole_allots (pool : Pool) (e : ExprId) (lits : Array Lit) :
    Allots pool (sole pool e lits) 0 fun _ => True := by
  unfold sole
  split
  · exact allots_pure trivial
  · exact (allots_ofExcept fun _ _ => trivial).bind_right fun _ _ => allots_throw _

theorem soles_allots (pool : Pool) (operands : List (ExprId × Array Lit)) :
    Allots pool (soles pool operands) 0 fun _ => True :=
  allots_mapM_free fun operand => sole_allots pool operand.1 operand.2

/-- A component has no more literals than its tuple. -/
theorem size_component_le {ty : Ty} {index : Nat} {lits part : Array Lit}
    (found : component ty index lits = .ok part) : part.size ≤ lits.size := by
  unfold component at found
  split at found
  · obtain ⟨field, -, sliced⟩ := bind_eq_ok_iff.mp found
    obtain ⟨-, rfl⟩ := slice_eq_ok_iff.mp sliced
    rw [Array.size_extract]
    omega
  · cases found

theorem size_foldl_append (operands : List (ExprId × Array Lit)) (lits : Array Lit) :
    (operands.foldl (fun lits operand => lits ++ operand.2) lits).size =
      lits.size + total id (operands.map fun operand => operand.2.size) := by
  induction operands generalizing lits with
  | nil => rfl
  | cons operand operands inductionHypothesis =>
    rw [List.foldl_cons, inductionHypothesis, Array.size_append, List.map_cons, total_cons, id, Nat.add_assoc]

/-- An operator makes variables for its gates only. -/
theorem combine_allots (pool : Pool) (op : Op) (operands : List (ExprId × Array Lit)) :
    Allots pool (combine pool op operands) (op.gates (operands.map fun operand => operand.2.size))
      fun lits => lits.size ≤ op.width (operands.map fun operand => operand.2.size) := by
  unfold combine
  split
  · refine (sole_allots pool _ _).bind_right fun a _ => (neg_allots a).bind_right fun _ _ => ?_
    exact allots_pure le_rfl
  · refine (soles_allots pool operands).bind_right fun inputs _ => ?_
    exact (andGate_allots inputs).bind_left fun _ _ => allots_pure le_rfl
  · refine (soles_allots pool operands).bind_right fun inputs _ => ?_
    exact (orGate_allots inputs).bind_left fun _ _ => allots_pure le_rfl
  · refine (soles_allots pool operands).bind_right fun inputs _ => ?_
    exact (orGate_allots inputs).bind_left fun _ _ => allots_pure le_rfl
  · refine (sole_allots pool _ _).bind_right fun a _ => (sole_allots pool _ _).bind_right fun b _ => ?_
    exact (xorGate_allots a b).bind_left fun _ _ => allots_pure le_rfl
  · rename_i left right rest
    have pairs : max left.2.size right.2.size ≤
        ((left :: right :: rest).map fun operand => operand.2.size).foldl max 0 :=
      max_le (le_foldl_max (by simp)) (le_foldl_max (by simp))
    refine ((agreements_allots left.2 right.2).mono pairs fun _ => id).bind fun same _ => ?_
    exact (andGate_allots same).bind_left fun _ _ => allots_pure le_rfl
  · exact (allots_ofExcept fun _ _ => trivial).bind_right fun _ _ => allots_pure le_rfl
  · exact allots_pure (by simp [size_foldl_append, Op.width])
  · exact allots_pure (by simp [size_foldl_append, Op.width])
  · refine (allots_ofExcept fun _ _ => trivial).bind_right fun ty _ => allots_ofExcept fun lits found => ?_
    exact (size_component_le found).trans (le_foldl_max (by simp))
  · exact (allots_throw _).mono (Nat.zero_le _) fun _ => id

end Gates

/-- The literals of a stored expression are remembered. -/
theorem remember_allots {lits : Array Lit} (stored : pool.Has e) (le : lits.size ≤ (pool.tree e).width) :
    Allots pool (remember e lits) 0 fun _ => True := by
  intro session narrow
  refine ⟨fun other row found => ?_, le_rfl, trivial⟩
  rw [Std.HashMap.getElem?_insert] at found
  split at found
  · rename_i same
    cases found
    rw [← eq_of_beq same]
    exact ⟨stored, le⟩
  · exact narrow other row found

/-- Lowering an expression makes no more variables than its tree demands. -/
theorem lower_allots (pool : Pool) (e : ExprId) :
    Allots pool (lower pool e) (pool.tree e).demand fun lits => lits.size ≤ (pool.tree e).width := by
  induction index : e.index using Nat.strong_induction_on generalizing e with
  | _ size inductionHypothesis =>
  subst index
  have node : Allots pool (lowerNode pool e) (pool.tree e).demand fun lits =>
      pool.Has e ∧ lits.size ≤ (pool.tree e).width := by
    unfold lowerNode
    split
    · rename_i ty name stored
      rw [Pool.tree_var stored]
      exact (variableBits_allots e ty).mono le_rfl fun lits size => ⟨Pool.has_iff.mpr ⟨_, stored⟩, size.le⟩
    · rename_i ty value stored
      rw [Pool.tree_const stored]
      exact (constantBits_allots ty value).mono le_rfl fun lits size =>
        ⟨Pool.has_iff.mpr ⟨_, stored⟩, size.le⟩
    · rename_i ty op operands stored
      rw [Pool.demand_tree_apply stored, Pool.width_tree_apply stored, Nat.add_comm]
      split
      · have each : ∀ operand ∈ operands, Allots pool
            (do let lits ← lower pool operand; return (operand, lits)) (pool.tree operand).demand
            fun row => row.2.size ≤ (pool.tree operand).width := fun operand member =>
          (inductionHypothesis _ (Pool.index_lt_of_node? stored member) operand rfl).bind_left
            fun lits le => allots_pure le
        refine (allots_mapM each).bind fun lowered rows => ?_
        have sizes : List.Forall₂ (· ≤ ·) (lowered.map fun row => row.2.size)
            (operands.map fun operand => (pool.tree operand).width) := by
          rw [List.forall₂_map_left_iff, List.forall₂_map_right_iff]
          exact rows.flip
        exact (combine_allots pool op lowered).mono (op.gates_le_gates sizes) fun lits le =>
          ⟨Pool.has_iff.mpr ⟨_, stored⟩, le.trans (op.width_le_width sizes)⟩
      · exact (allots_throw _).mono (Nat.zero_le _) fun _ => id
    · exact (allots_throw _).mono (Nat.zero_le _) fun _ => id
  intro session narrow
  rw [lower_eq, Stateful.meets_bind, Stateful.meets_get]
  cases found : session.literals[e]? with
  | some lits => exact ⟨narrow, Nat.le_add_right _ _, (narrow e lits found).2⟩
  | none =>
    refine node.bind_left (fun lits made => ?_) session narrow
    exact (remember_allots made.1 made.2).bind_right fun _ _ => allots_pure made.2

theorem literal_allots (pool : Pool) (e : ExprId) :
    Allots pool (literal pool e) (pool.tree e).demand fun _ => True :=
  (lower_allots pool e).bind_left fun lits _ => sole_allots pool e lits

theorem assertLiteral_allots (pool : Pool) (e : ExprId) :
    Allots pool (assertLiteral pool e) (pool.tree e).demand fun _ => True :=
  (literal_allots pool e).bind_left fun lit _ => addClause_allots [lit]

theorem assert_allots (pool : Pool) (e : ExprId) :
    Allots pool (assert pool e) (pool.tree e).demand fun _ => True := by
  induction index : e.index using Nat.strong_induction_on generalizing e with
  | _ size inductionHypothesis =>
  subst index
  have disjunction : ∀ {ty op operands}, pool.node? e = some ⟨ty, .apply op operands⟩ →
      Allots pool (do let lits ← operands.mapM (literal pool); addClause lits) (pool.tree e).demand
        fun _ => True := by
    intro ty op operands stored
    rw [Pool.demand_tree_apply stored]
    refine ((allots_mapM fun operand _ => literal_allots pool operand).mono
      (Nat.le_add_left _ _) fun _ => id).bind_left fun lits _ => ?_
    exact addClause_allots lits
  rw [assert_eq]
  refine (allots_ofExcept fun _ _ => trivial).bind_right fun ty _ => ?_
  split
  · unfold assertNode
    split
    · rename_i operands stored
      refine .get fun session => ?_
      split
      · rw [Pool.demand_tree_apply stored]
        refine (allots_forM fun operand member => ?_).mono (Nat.le_add_left _ _) fun _ => id
        exact inductionHypothesis _ (Pool.index_lt_of_node? stored member) operand rfl
      · exact assertLiteral_allots pool e
    · exact disjunction ‹_›
    · exact disjunction ‹_›
    · exact assertLiteral_allots pool e
  · exact (allots_throw _).mono (Nat.zero_le _) fun _ => id

end Lower

namespace Solve

variable {workspace : Workspace PassMemory} {session : Session} {constraints : List ExprId}
  {limit : ExprId → Nat} {options : SolveOptions}

/-- The normal form of an expression demands what the expression demands before
canonicalization, which changes the order of operands only. -/
theorem demand_normal {e normal : ExprId} {after : Workspace PassMemory} {prepared : Tree}
    (coherent : workspace.Coherent) (stored : workspace.pool.Has e)
    (derives : Pass.DerivesAll Pass.preparation (workspace.pool.tree e) prepared)
    (ended : Pass.normalize e workspace = .ok normal after) :
    (after.pool.tree normal).demand = prepared.demand := by
  obtain ⟨advances, chain⟩ := (Pass.normalize_tries coherent stored).of_ok ended
  obtain ⟨p, front, canonicalized⟩ := chain.exists_canonicalized
  have same := front.derives
  rw [advances.extension.tree_eq stored] at same
  have reordered : after.pool.Reordered p normal := canonicalized.settles
  rw [derives.unique same, reordered.rearranges.demand_eq]

/-- Asserting constraints makes no more variables than their normal forms demand. -/
theorem assertAll_allots (coherent : workspace.Coherent) (narrow : session.Narrow workspace.pool)
    (stored : ∀ constraint ∈ constraints, workspace.pool.Has constraint)
    (each : ∀ constraint ∈ constraints, ∃ prepared,
      Pass.DerivesAll Pass.preparation (workspace.pool.tree constraint) prepared ∧
        prepared.demand ≤ limit constraint) :
    (assertedSession session constraints workspace).numVars ≤ session.numVars + total limit constraints ∧
      ∀ last after, assertAll session constraints workspace = .ok last after →
        workspace.pool.Extends after.pool ∧ last.Narrow after.pool := by
  induction constraints generalizing session workspace with
  | nil =>
    refine ⟨le_rfl, ?_⟩
    rintro _ _ ⟨⟩
    exact ⟨.refl _, narrow⟩
  | cons constraint rest inductionHypothesis =>
    rw [List.forall_mem_cons] at stored each
    obtain ⟨⟨prepared, derives, few⟩, others⟩ := each
    rw [total_cons]
    unfold assertedSession
    cases normalized : Pass.normalize constraint workspace with
    | error failure middle =>
      refine ⟨Nat.le_add_right _ _, fun last after ended => ?_⟩
      obtain ⟨_, _, _, _, succeeded, -⟩ := assertAll_cons_eq_ok.mp ended
      cases normalized.symm.trans succeeded
    | ok normal middle =>
      have advances := ((Pass.normalize_tries coherent stored.1).of_ok normalized).1
      have extension := advances.extension
      have same := demand_normal coherent stored.1 derives normalized
      have asserted := Lower.assert_allots middle.pool normal session (narrow.extend extension)
      cases outcome : Lower.assert middle.pool normal session with
      | error failure last =>
        have bounded := asserted.of_error outcome
        refine ⟨by simp only [outcome]; omega, fun last after ended => ?_⟩
        obtain ⟨_, _, _, _, again, succeeded, -⟩ := assertAll_cons_eq_ok.mp ended
        cases normalized.symm.trans again
        cases outcome.symm.trans succeeded
      | ok _ next =>
        obtain ⟨nextNarrow, bounded, -⟩ := asserted.of_ok outcome
        obtain ⟨fewOthers, later⟩ := inductionHypothesis (advances.coherent coherent) nextNarrow
          (fun other member => extension.has (stored.2 other member)) fun other member => by
            rw [extension.tree_eq (stored.2 other member)]
            exact others other member
        refine ⟨by simp only [outcome]; omega, fun last after ended => ?_⟩
        obtain ⟨_, _, _, _, again, succeeded, ended⟩ := assertAll_cons_eq_ok.mp ended
        cases normalized.symm.trans again
        cases outcome.symm.trans succeeded
        obtain ⟨further, lastNarrow⟩ := later last after ended
        exact ⟨extension.trans further, lastNarrow⟩

/-- Lowering variables makes no more variables than they have bits. -/
theorem loweredSession_allots {pool : Pool} (narrow : session.Narrow pool) (vars : List ExprId) :
    (loweredSession pool session vars).numVars ≤
      session.numVars + total (fun var => (pool.tree var).demand) vars := by
  induction vars generalizing session with
  | nil => exact le_rfl
  | cons var rest inductionHypothesis =>
    have lowered := Lower.lower_allots pool var session narrow
    unfold loweredSession
    rw [total_cons]
    cases outcome : Lower.lower pool var session with
    | error failure last =>
      have bounded := lowered.of_error outcome
      dsimp only
      omega
    | ok lits next =>
      obtain ⟨nextNarrow, bounded, -⟩ := lowered.of_ok outcome
      have others := inductionHypothesis nextNarrow
      dsimp only
      omega

/-- Compilation makes no more variables than the prepared constraints and their variables
demand. -/
theorem allocated_le (coherent : workspace.Coherent) (options : SolveOptions)
    (stored : ∀ constraint ∈ constraints, workspace.pool.Has constraint)
    (each : ∀ constraint ∈ constraints, ∃ prepared,
      Pass.DerivesAll Pass.preparation (workspace.pool.tree constraint) prepared ∧
        prepared.demand ≤ limit constraint) :
    allocated constraints options workspace ≤ total limit constraints +
      total (fun var => (workspace.pool.tree var).demand) (workspace.pool.variablesOf constraints) := by
  obtain ⟨asserted, later⟩ := assertAll_allots coherent (Session.narrow_start options.flatten _) stored each
  have start : (Session.start options.flatten).numVars = 0 := rfl
  unfold allocated
  cases outcome : assertAll (.start options.flatten) constraints workspace with
  | error failure after =>
    dsimp only
    omega
  | ok session after =>
    obtain ⟨extension, narrow⟩ := later session after outcome
    have lowered := loweredSession_allots narrow (workspace.pool.variablesOf constraints)
    have same : total (fun var => (after.pool.tree var).demand) (workspace.pool.variablesOf constraints) =
        total (fun var => (workspace.pool.tree var).demand) (workspace.pool.variablesOf constraints) := by
      refine total_congr fun var member => ?_
      obtain ⟨ty, name, found⟩ := Pool.isVariable_iff.mp (Pool.mem_variablesOf_iff.mp member).2
      rw [extension.tree_eq (Pool.has_iff.mpr ⟨_, found⟩)]
    rw [(assertAll_ends _ constraints workspace).of_ok outcome] at lowered ⊢
    dsimp only
    omega

section Disjunction

variable {x y either denial : ExprId}

/-- The variables of a disjunction and of the negation of its first operand. -/
theorem variablesOf_disjunction_subset (stores : workspace.pool.StoresDisjunction x y either denial) :
    workspace.pool.variablesOf [either, denial] ⊆ [x, y] := by
  obtain ⟨xStored, yStored, eitherStored, denialStored⟩ := stores
  intro z member
  obtain ⟨⟨constraint, inside, reaches⟩, isVariable⟩ := Pool.mem_variablesOf_iff.mp member
  obtain ⟨ty, name, stored⟩ := Pool.isVariable_iff.mp isVariable
  have notEither : z ≠ either := by
    rintro rfl
    simp [eitherStored] at stored
  have notDenial : z ≠ denial := by
    rintro rfl
    simp [denialStored] at stored
  have fromEither : workspace.pool.Reaches either z → z = x ∨ z = y := by
    simp [Pool.reaches_iff eitherStored, Pool.reaches_iff xStored, Pool.reaches_iff yStored, Node.operands,
      Form.operands, notEither]
  have fromDenial : workspace.pool.Reaches denial z → z = x := by
    simp [Pool.reaches_iff denialStored, Pool.reaches_iff xStored, Node.operands, Form.operands, notDenial]
  rw [List.mem_pair] at inside ⊢
  rcases inside with rfl | rfl
  · exact fromEither reaches
  · exact .inl (fromDenial reaches)

/-- A disjunction of two variables and the negation of the first need few variables. -/
theorem allocated_disjunction_le (options : SolveOptions) (sound : workspace.Sound)
    (stores : workspace.pool.StoresDisjunction x y either denial) :
    allocated [either, denial] options workspace ≤ 6 := by
  have inside := variablesOf_disjunction_subset stores
  obtain ⟨xStored, yStored, eitherStored, denialStored⟩ := stores
  have differ : x ≠ y := by
    rintro rfl
    simp [xStored] at yStored
  have eitherHas := Pool.has_iff.mpr ⟨_, eitherStored⟩
  have denialHas := Pool.has_iff.mpr ⟨_, denialStored⟩
  have settled : workspace.pool.Settled either := by
    refine Pool.settled_junction eitherStored differ ?_ ?_ (.inr rfl)
    · simp [Rules.stands_var xStored, Rules.stands_var yStored]
    · simp [Pool.settled_var xStored, Pool.settled_var yStored]
  have rigid : workspace.pool.Rigid denial := .negation denialStored (.var xStored)
  have prepared : ∀ constraint ∈ [either, denial], ∃ prepared,
      Pass.DerivesAll Pass.preparation (workspace.pool.tree constraint) prepared ∧
        prepared.demand ≤ (workspace.pool.tree constraint).demand := by
    simp only [List.forall_mem_cons]
    exact ⟨⟨_, settled.derivesAll sound.typed eitherHas, le_rfl⟩,
      ⟨_, Pass.derivesAll_of_rigid sound rigid denialHas _, le_rfl⟩, by simp⟩
  have bound := allocated_le sound.toCoherent options (by simp [eitherHas, denialHas]) prepared
  have few :
      total (fun var => (workspace.pool.tree var).demand) (workspace.pool.variablesOf [either, denial]) ≤
        total (fun var => (workspace.pool.tree var).demand) [x, y] :=
    total_le_of_subset (Pool.nodup_variablesOf _ _) inside
  have xTree := Pool.tree_var xStored
  have yTree := Pool.tree_var yStored
  have eitherTree := Pool.tree_apply eitherStored
  have denialTree := Pool.tree_apply denialStored
  simp only [List.map_cons, List.map_nil, xTree, yTree] at eitherTree denialTree
  simp [eitherTree, denialTree, xTree, yTree, Tree.demand, Tree.demands, Op.gates, Ty.bitSize] at bound few
  omega

end Disjunction

end Solve

end Clausal
