import Mathlib
import Clausal.Proofs.Clauses
import Clausal.Proofs.Codec

/-!
# Gates of a lowering session

`Session.Defines` says that a later session only defines new variables: every
assignment that satisfies the earlier one extends to the new variables in exactly
one way that satisfies the later one. Each gate makes such a step and returns
literals with known truth values.

Literals are 32-bit numbers, so all this holds as long as the session is `Live`:
it has fewer than `2 ^ 31` variables. `Lower.Runs` is about what an action does if
the session that it ends with is live. Sessions never lose variables, which
`Lower.Grows` records action by action.
-/

namespace Clausal

/-- Two assignments are the same on the variables up to a bound. -/
def Assignment.AgreesUpTo (bound : Nat) (truth other : Assignment) : Prop :=
  ∀ number, 0 < number → number ≤ bound → truth number = other number

theorem Assignment.AgreesUpTo.holds_eq {bound : Nat} {truth other : Assignment} {lit : Lit}
    (agree : AgreesUpTo bound truth other) (ranged : lit.var ≤ bound) :
    lit.holds truth = lit.holds other :=
  Lit.holds_congr (agree lit.var lit.var_pos ranged)

namespace Session

variable {session before after : Session} {truth other : Assignment}

/-- The session has fewer than `2 ^ 31` variables. -/
def Live (session : Session) : Prop :=
  session.numVars < Lit.varLimit

/-- Every clause of a session is true. -/
def Satisfied (session : Session) (truth : Assignment) : Prop :=
  ∀ clause ∈ session.store.toList, Clause.Holds truth clause

/-- The clauses of a session are about its variables, the store finds exactly the
clauses that it has, and the literal known to be true has a clause that says so. -/
structure Closed (session : Session) : Prop where
  stored : ∀ clause, session.store.members.contains clause → clause ∈ session.store.toList
  ranged : ∀ clause ∈ session.store.toList, ∀ lit ∈ clause, lit.var ≤ session.numVars
  top : ∀ lit, session.top = some lit → [lit] ∈ session.store.toList

theorem closed_start (flatten : Bool) : (start flatten).Closed :=
  ⟨by simp [start, ClauseStore.empty], by simp [start, ClauseStore.empty, ClauseStore.toList], nofun⟩

/-- There may be more variables than clauses are about. -/
theorem Closed.grow (closed : session.Closed) :
    { session with numVars := session.numVars + 1 }.Closed :=
  ⟨closed.stored, fun clause member lit litMember =>
    (closed.ranged clause member lit litMember).trans (Nat.le_succ _), closed.top⟩

/-- The literal known to be true is true. -/
theorem Closed.top_holds (closed : session.Closed) (satisfied : session.Satisfied truth) :
    ∀ lit ∈ session.top, lit.holds truth := by
  intro lit isTop
  obtain ⟨only, member, holds⟩ := satisfied [lit] (closed.top lit isTop)
  rwa [List.mem_singleton.mp member] at holds

/-- Satisfaction looks at the variables of the session only. -/
theorem Closed.satisfied_of_agrees (closed : session.Closed) (satisfied : session.Satisfied truth)
    (agree : Assignment.AgreesUpTo session.numVars truth other) : session.Satisfied other := by
  intro clause member
  obtain ⟨lit, litMember, holds⟩ := satisfied clause member
  refine ⟨lit, litMember, ?_⟩
  rwa [← agree.holds_eq (closed.ranged clause member lit litMember)]

/-- A later session has `count` more variables, and its clauses demand `condition`
beyond those of the earlier one. -/
structure Emits (before after : Session) (count : Nat) (condition : Assignment → Prop) : Prop where
  numVars_eq : after.numVars = before.numVars + count
  satisfied_iff : ∀ truth, after.Satisfied truth ↔ before.Satisfied truth ∧ condition truth
  closed : after.Closed
  literals_eq : after.literals = before.literals
  surface_eq : after.surface = before.surface

theorem Emits.refl (closed : session.Closed) : session.Emits session 0 fun _ => True :=
  ⟨rfl, fun _ => ⟨fun satisfied => ⟨satisfied, trivial⟩, And.left⟩, closed, rfl, rfl⟩

theorem Emits.trans {middle : Session} {count more : Nat} {condition further : Assignment → Prop}
    (earlier : before.Emits middle count condition) (later : middle.Emits after more further) :
    before.Emits after (count + more) fun truth => condition truth ∧ further truth := by
  refine ⟨?_, fun truth => ?_, later.closed, later.literals_eq.trans earlier.literals_eq,
    later.surface_eq.trans earlier.surface_eq⟩
  · rw [later.numVars_eq, earlier.numVars_eq, Nat.add_assoc]
  · rw [later.satisfied_iff, earlier.satisfied_iff, and_assoc]

theorem Emits.congr {count : Nat} {condition other : Assignment → Prop}
    (emits : before.Emits after count condition) (same : ∀ truth, condition truth ↔ other truth) :
    before.Emits after count other :=
  ⟨emits.numVars_eq, fun truth => (emits.satisfied_iff truth).trans (and_congr_right' (same truth)),
    emits.closed, emits.literals_eq, emits.surface_eq⟩

/-- A later session only defines variables: assignments that satisfy the earlier
one extend to the later one in exactly one way. -/
structure Defines (before after : Session) : Prop where
  numVars_le : before.numVars ≤ after.numVars
  satisfied : ∀ truth, after.Satisfied truth → before.Satisfied truth
  extend : ∀ truth, before.Satisfied truth →
    ∃ later, after.Satisfied later ∧ Assignment.AgreesUpTo before.numVars truth later
  unique : ∀ truth other, after.Satisfied truth → after.Satisfied other →
    Assignment.AgreesUpTo before.numVars truth other → Assignment.AgreesUpTo after.numVars truth other
  closed : before.Closed → after.Closed
  literals_eq : after.literals = before.literals
  surface_eq : after.surface = before.surface

instance : IsPreorder Session Defines where
  refl session := ⟨le_rfl, fun _ => id, fun truth satisfied => ⟨truth, satisfied, fun _ _ _ => rfl⟩,
    fun _ _ _ _ => id, id, rfl, rfl⟩
  trans first second third earlier later := by
    refine ⟨earlier.numVars_le.trans later.numVars_le, ?_, ?_, ?_,
      fun closed => later.closed (earlier.closed closed),
      later.literals_eq.trans earlier.literals_eq, later.surface_eq.trans earlier.surface_eq⟩
    · exact fun truth satisfied => earlier.satisfied truth (later.satisfied truth satisfied)
    · intro truth satisfied
      obtain ⟨middle, middleSatisfied, agree⟩ := earlier.extend truth satisfied
      obtain ⟨last, lastSatisfied, further⟩ := later.extend middle middleSatisfied
      refine ⟨last, lastSatisfied, fun number positive bound => ?_⟩
      exact (agree number positive bound).trans
        (further number positive (bound.trans earlier.numVars_le))
    · intro truth other satisfied otherSatisfied agree
      refine later.unique truth other satisfied otherSatisfied ?_
      exact earlier.unique truth other (later.satisfied truth satisfied)
        (later.satisfied other otherSatisfied) agree

/-- Literals of a session have known truth values. -/
structure Tracks (session : Session) (lits : List Lit) (values : Assignment → List Bool) : Prop where
  ranged : ∀ lit ∈ lits, lit.var ≤ session.numVars
  means : ∀ truth, session.Satisfied truth → lits.map (Lit.holds truth) = values truth

theorem Tracks.later {lits : List Lit} {values : Assignment → List Bool}
    (tracks : before.Tracks lits values) (defines : before.Defines after) :
    after.Tracks lits values :=
  ⟨fun lit member => (tracks.ranged lit member).trans defines.numVars_le,
    fun truth satisfied => tracks.means truth (defines.satisfied truth satisfied)⟩

/-- Clauses that fix the truth of one new variable define it. -/
theorem Emits.gate (function : List Bool → Bool) {inputs : List Lit} (closed : before.Closed)
    (ranged : ∀ lit ∈ inputs, lit.var ≤ before.numVars)
    (emits : before.Emits after 1 fun truth =>
      truth (before.numVars + 1) = function (inputs.map (Lit.holds truth))) :
    before.Defines after ∧ after.Tracks [.positive (before.numVars + 1) (Nat.succ_pos _)]
      fun truth => [function (inputs.map (Lit.holds truth))] := by
  have depends : ∀ truth other, Assignment.AgreesUpTo before.numVars truth other →
      inputs.map (Lit.holds truth) = inputs.map (Lit.holds other) := fun truth other agree =>
    List.map_congr_left fun lit member => agree.holds_eq (ranged lit member)
  constructor
  · refine ⟨?_, ?_, ?_, ?_, fun _ => emits.closed, emits.literals_eq, emits.surface_eq⟩
    · rw [emits.numVars_eq]
      exact Nat.le_succ _
    · exact fun truth satisfied => ((emits.satisfied_iff truth).mp satisfied).1
    · intro truth satisfied
      set later := Function.update truth (before.numVars + 1) (function (inputs.map (Lit.holds truth)))
      have agree : Assignment.AgreesUpTo before.numVars truth later := by
        intro number _ bound
        exact (Function.update_of_ne (by omega) _ _).symm
      refine ⟨later, (emits.satisfied_iff later).mpr ⟨?_, ?_⟩, agree⟩
      · exact closed.satisfied_of_agrees satisfied agree
      · rw [← depends truth later agree]
        exact Function.update_self _ _ _
    · intro truth other satisfied otherSatisfied agree number positive bound
      rw [emits.numVars_eq] at bound
      rcases Nat.lt_or_eq_of_le bound with below | rfl
      · exact agree number positive (by omega)
      · rw [((emits.satisfied_iff truth).mp satisfied).2,
          ((emits.satisfied_iff other).mp otherSatisfied).2, depends truth other agree]
  · refine ⟨?_, fun truth satisfied => ?_⟩
    · simp [emits.numVars_eq]
    · simp [((emits.satisfied_iff truth).mp satisfied).2]

end Session

namespace Lower

variable {α β : Type}

-- The code of a variable is a remainder modulo `2 ^ 32`, which is not to be
-- computed for a variable that is not known.
attribute [local irreducible] Lit.ofVar

section Growth

/-- An action never takes variables away, whether it succeeds or fails. -/
class Grows (action : Lower α) : Prop where
  keeps : ∀ session, Stateful.Keeps (fun before after : Session => before.numVars ≤ after.numVars)
    action session

instance : IsPreorder Session fun before after => before.numVars ≤ after.numVars where
  refl session := le_refl session.numVars
  trans _ _ _ := le_trans

instance (result : α) : Grows (pure result) :=
  ⟨fun _ => Stateful.Keeps.pure⟩

instance (failure : Failure LowerError) : Grows (throw failure : Lower α) :=
  ⟨fun _ => Stateful.Keeps.throw⟩

instance (cause : LowerError) : Grows (Stateful.fail cause : Lower α) :=
  ⟨fun _ => Stateful.Keeps.throw⟩

instance (fault : Fault) : Grows (Stateful.breach fault : Lower α) :=
  ⟨fun _ => Stateful.Keeps.throw⟩

instance : Grows (get : Lower Session) :=
  ⟨fun session => le_refl session.numVars⟩

instance (source : Except Fault α) : Grows (Stateful.ofExcept source : Lower α) := by
  cases source
  · exact inferInstanceAs (Grows (throw _))
  · exact inferInstanceAs (Grows (pure _))

instance (action : Lower α) (next : α → Lower β) [first : Grows action]
    [second : ∀ result, Grows (next result)] : Grows (action >>= next) :=
  ⟨fun session => (first.keeps session).bind fun result after _ => (second result).keeps after⟩

instance (condition : Prop) [Decidable condition] (left right : Lower α) [Grows left]
    [Grows right] : Grows (if condition then left else right) := by
  split <;> infer_instance

theorem grows_mapM {items : List α} {step : α → Lower β}
    (each : ∀ item ∈ items, Grows (step item)) : Grows (items.mapM step) :=
  ⟨fun _ => Stateful.Keeps.mapM fun item member after _ => (each item member).keeps after⟩

instance (items : List α) (step : α → Lower β) [each : ∀ item, Grows (step item)] :
    Grows (items.mapM step) :=
  grows_mapM fun item _ => each item

theorem grows_forM {items : List α} {step : α → Lower PUnit}
    (each : ∀ item ∈ items, Grows (step item)) : Grows (items.forM step) := by
  induction items with
  | nil => exact inferInstanceAs (Grows (pure _))
  | cons item items inductionHypothesis =>
    have first := each item List.mem_cons_self
    have rest := inductionHypothesis fun other member => each other (List.mem_cons_of_mem item member)
    exact inferInstanceAs (Grows (step item >>= fun _ => items.forM step))

instance (items : List α) (step : α → Lower PUnit) [each : ∀ item, Grows (step item)] :
    Grows (items.forM step) :=
  grows_forM fun item _ => each item

instance (lit : Lit) : Grows (neg lit) :=
  inferInstanceAs (Grows (Stateful.ofExcept _))

instance (clause : Clause) : Grows (keep clause) :=
  ⟨fun session => le_refl session.numVars⟩

instance (lit : Lit) : Grows (modify fun session => { session with top := some lit }) :=
  ⟨fun session => le_refl session.numVars⟩

theorem meets_fresh {session : Session} {done : Lit → Session → Prop}
    {failed : Failure LowerError → Session → Prop} :
    Stateful.Meets fresh session done failed ↔
      match Lit.ofVar (session.numVars + 1) with
      | .ok lit => done lit { session with numVars := session.numVars + 1 }
      | .error fault => failed (.fault fault) { session with numVars := session.numVars + 1 } := by
  unfold fresh
  rw [Stateful.meets_bind, Stateful.meets_get, Stateful.meets_bind, Stateful.meets_modify,
    Stateful.meets_ofExcept]
  generalize Lit.ofVar (session.numVars + 1) = source
  cases source <;> rfl

theorem meets_fresh_of_forall {session : Session} {done : Lit → Session → Prop}
    {failed : Failure LowerError → Session → Prop}
    (results : ∀ lit, Lit.ofVar (session.numVars + 1) = .ok lit →
      done lit { session with numVars := session.numVars + 1 })
    (failures : ∀ fault, Lit.ofVar (session.numVars + 1) = .error fault →
      failed (.fault fault) { session with numVars := session.numVars + 1 }) :
    Stateful.Meets fresh session done failed := by
  rw [meets_fresh]
  cases found : Lit.ofVar (session.numVars + 1) with
  | ok lit => exact results lit found
  | error fault => exact failures fault found

/-- While there are few variables, a new one is made. -/
theorem meets_fresh_of_small {session : Session} {done : Lit → Session → Prop}
    {failed : Failure LowerError → Session → Prop} (small : session.numVars + 1 < Lit.varLimit)
    (holds : done (.positive (session.numVars + 1) (Nat.succ_pos _))
      { session with numVars := session.numVars + 1 }) :
    Stateful.Meets fresh session done failed := by
  have found := Lit.ofVar_eq (Nat.succ_pos session.numVars) small
  refine meets_fresh_of_forall (fun lit made => ?_) fun fault failed => ?_
  · rwa [Except.ok.inj (made.symm.trans found)]
  · cases failed.symm.trans found

instance : Grows fresh where
  keeps session := meets_fresh_of_forall (fun _ _ => Nat.le_succ session.numVars)
    fun _ _ => Nat.le_succ session.numVars

instance (lits : Clause) : Grows (addClause lits) := by
  have each : ∀ result : Option Clause, Grows (match result with
      | some clause => keep clause
      | none => return ()) := by
    rintro (_ | clause) <;> infer_instance
  unfold addClause
  infer_instance

instance : Grows top := by
  have each : ∀ found : Option Lit, Grows (match found with
      | some lit => return lit
      | none => do
        let lit ← fresh
        modify fun session => { session with top := some lit }
        keep [lit]
        return lit) := by
    rintro (_ | lit)
    · infer_instance
    · infer_instance
  unfold top
  infer_instance

instance (inputs : List Lit) : Grows (andGate inputs) := by
  unfold andGate
  split <;> infer_instance

instance (inputs : List Lit) : Grows (orGate inputs) := by
  unfold orGate
  split <;> infer_instance

instance (a b : Lit) : Grows (xorGate a b) := by
  unfold xorGate
  infer_instance

instance (a b : Lit) : Grows (agreement a b) := by
  unfold agreement
  infer_instance

instance grows_agreement_pair (pair : Lit × Lit) : Grows (match pair with | (x, y) => agreement x y) :=
  inferInstanceAs (Grows (agreement pair.1 pair.2))

instance (xs ys : Array Lit) : Grows (agreements xs ys) := by
  unfold agreements
  infer_instance

end Growth

section Running

variable {session : Session} {refused : LowerError → Session → Prop}

/-- If the session stays live, the action ends with `done`, or else it reports an
error and `refused` holds; there is no fault. -/
def Runs (action : Lower α) (session : Session) (done : α → Session → Prop)
    (refused : LowerError → Session → Prop) : Prop :=
  Stateful.Meets action session (fun result after => after.Live → done result after)
    fun failure after => after.Live → ∃ cause, failure = .error cause ∧ refused cause after

/-- If the session stays live, the action succeeds and ends with `done`. -/
abbrev Succeeds (action : Lower α) (session : Session) (done : α → Session → Prop) : Prop :=
  Runs action session done fun _ _ => False

theorem Runs.mono {action : Lower α} {done weaker : α → Session → Prop}
    {weakerRefused : LowerError → Session → Prop} (runs : Runs action session done refused)
    (results : ∀ result after, after.Live → done result after → weaker result after)
    (refusals : ∀ cause after, after.Live → refused cause after → weakerRefused cause after) :
    Runs action session weaker weakerRefused := by
  refine Stateful.Meets.mono runs ?_ ?_
  · exact fun result after holds live => results result after live (holds live)
  · intro failure after holds live
    obtain ⟨cause, same, refusal⟩ := holds live
    exact ⟨cause, same, refusals cause after live refusal⟩

theorem Succeeds.mono {action : Lower α} {done weaker : α → Session → Prop}
    (succeeds : Succeeds action session done)
    (results : ∀ result after, after.Live → done result after → weaker result after) :
    Runs action session weaker refused :=
  Runs.mono succeeds results fun _ _ _ impossible => impossible.elim

theorem Runs.pure {result : α} {done : α → Session → Prop} (holds : session.Live → done result session) :
    Runs (Pure.pure result) session done refused :=
  Stateful.meets_pure.mpr holds

theorem Runs.fail {cause : LowerError} {done : α → Session → Prop}
    (holds : session.Live → refused cause session) :
    Runs (Stateful.fail cause) session done refused :=
  fun live => ⟨cause, rfl, holds live⟩

theorem Runs.get {next : Session → Lower α} {done : α → Session → Prop}
    (rest : Runs (next session) session done refused) :
    Runs (MonadState.get >>= next) session done refused := by
  unfold Runs
  rwa [Stateful.meets_bind, Stateful.meets_get]

theorem Runs.change {change : Session → Session} {next : PUnit → Lower α}
    {done : α → Session → Prop} (rest : Runs (next ⟨⟩) (change session) done refused) :
    Runs (modify change >>= next) session done refused := by
  unfold Runs
  rwa [Stateful.meets_bind, Stateful.meets_modify]

theorem Runs.ofExcept {source : Except Fault α} {result : α} {next : α → Lower β}
    {done : β → Session → Prop} (found : source = .ok result)
    (rest : Runs (next result) session done refused) :
    Runs (Stateful.ofExcept source >>= next) session done refused := by
  subst found
  unfold Runs
  rwa [Stateful.meets_bind, Stateful.meets_ofExcept_ok]

/-- Actions follow each other. What comes second may count on a live session, since
it takes no variables away. -/
theorem Runs.bind {action : Lower α} {next : α → Lower β} {middle : α → Session → Prop}
    {done : β → Session → Prop} [grows : ∀ result, Grows (next result)]
    (first : Runs action session middle refused)
    (second : ∀ result after, after.Live → middle result after →
      Runs (next result) after done refused) :
    Runs (action >>= next) session done refused := by
  unfold Runs
  rw [Stateful.meets_bind]
  refine Stateful.Meets.mono first (fun result after holds => ?_) fun _ _ holds => holds
  by_cases live : after.Live
  · exact second result after live (holds live)
  · refine Stateful.Meets.mono ((grows result).keeps after) ?_ ?_
    · exact fun _ last grown lastLive => absurd (grown.trans_lt lastLive) live
    · exact fun _ last grown lastLive => absurd (grown.trans_lt lastLive) live

/-- A step for every item of a list gives one result for every item. What relates an
item to its result must survive the steps behind it. -/
theorem Runs.mapM (advance : Session → Session → Prop) [IsPreorder Session advance]
    {step : α → Lower β} [∀ item, Grows (step item)] {items : List α}
    (related : α → β → Session → Prop)
    (stable : ∀ item result before after, advance before after →
      related item result before → related item result after)
    (live : session.Live)
    (each : ∀ item ∈ items, ∀ after, after.Live → advance session after →
      Runs (step item) after (fun result last => advance after last ∧ related item result last)
        refused) :
    Runs (items.mapM step) session
      (fun results after => advance session after ∧
        List.Forall₂ (fun item result => related item result after) items results) refused := by
  induction items generalizing session with
  | nil => exact Runs.pure fun _ => ⟨refl session, .nil⟩
  | cons item items inductionHypothesis =>
    rw [List.mapM_cons]
    refine (each item List.mem_cons_self session live (refl session)).bind ?_
    rintro result middle middleLive ⟨reached, found⟩
    have others := fun other member after afterLive later =>
      each other (List.mem_cons_of_mem item member) after afterLive
        (IsTrans.trans _ _ _ reached later)
    refine (inductionHypothesis middleLive others).bind ?_
    rintro results after afterLive ⟨later, rest⟩
    exact Runs.pure fun _ =>
      ⟨IsTrans.trans _ _ _ reached later, .cons (stable _ _ _ _ later found) rest⟩

end Running

section Primitives

variable {session : Session}

/-- A new variable, about which nothing is said. -/
theorem fresh_succeeds (closed : session.Closed) :
    Succeeds fresh session fun lit after =>
      session.Emits after 1 (fun _ => True) ∧ lit = .positive (session.numVars + 1) (Nat.succ_pos _) := by
  have found : session.numVars + 1 < Lit.varLimit → Lit.ofVar (session.numVars + 1) =
      .ok (.positive (session.numVars + 1) (Nat.succ_pos _)) := Lit.ofVar_eq _
  refine meets_fresh_of_forall (fun lit made live => ⟨?_, ?_⟩) fun fault failed live => ?_
  · exact ⟨rfl, fun truth => ⟨fun satisfied => ⟨satisfied, trivial⟩, And.left⟩, closed.grow, rfl, rfl⟩
  · exact Except.ok.inj (made.symm.trans (found live))
  · cases failed.symm.trans (found live)

theorem neg_eq_pure {lit : Lit} (live : session.Live) (ranged : lit.var ≤ session.numVars) :
    neg lit = pure lit.opposite := by
  unfold neg
  rw [Lit.neg_eq (ranged.trans_lt live)]
  rfl

theorem mem_toList_insert {store : ClauseStore} {clause other : Clause}
    (stored : store.members.contains clause → clause ∈ store.toList) :
    other ∈ (store.insert clause).2.toList ↔ other ∈ store.toList ∨ other = clause := by
  unfold ClauseStore.insert
  split
  · rename_i known
    exact ⟨.inl, fun member => member.elim id fun same => same ▸ stored known⟩
  · simp [ClauseStore.toList]

/-- A stored clause is a demand on assignments. -/
theorem keep_emits (closed : session.Closed) {clause : Clause}
    (ranged : ∀ lit ∈ clause, lit.var ≤ session.numVars) :
    session.Emits { session with store := (session.store.insert clause).2 } 0
      (Clause.Holds · clause) := by
  have members : ∀ other, other ∈ (session.store.insert clause).2.toList ↔
      other ∈ session.store.toList ∨ other = clause := fun _ =>
    mem_toList_insert (closed.stored clause)
  refine ⟨rfl, fun truth => ?_, ⟨?_, ?_, ?_⟩, rfl, rfl⟩
  · simp [Session.Satisfied, members, or_imp, forall_and]
  · intro other known
    rw [members]
    unfold ClauseStore.insert at known
    split at known
    · exact .inl (closed.stored other known)
    · rw [Std.HashSet.contains_insert, Bool.or_eq_true] at known
      exact known.elim (fun same => .inr (eq_of_beq same).symm) fun found => .inl (closed.stored other found)
  · intro other member lit litMember
    rcases (members other).mp member with found | rfl
    · exact closed.ranged other found lit litMember
    · exact ranged lit litMember
  · exact fun lit isTop => (members [lit]).mpr (.inl (closed.top lit isTop))

/-- A literal with a clause of its own is known to be true. -/
theorem keep_top_emits (closed : session.Closed) {lit : Lit} (ranged : lit.var ≤ session.numVars) :
    session.Emits { session with top := some lit, store := (session.store.insert [lit]).2 } 0
      (Clause.Holds · [lit]) := by
  have kept : session.Emits { session with store := (session.store.insert [lit]).2 } 0
      (Clause.Holds · [lit]) := keep_emits closed (by simpa using ranged)
  refine ⟨rfl, kept.satisfied_iff, ⟨kept.closed.stored, kept.closed.ranged, ?_⟩, rfl, rfl⟩
  rintro _ ⟨⟩
  exact (mem_toList_insert (closed.stored [lit])).mpr (.inr rfl)

/-- The normal form of a clause is stored, or nothing if it holds in any case. -/
theorem meets_addClause_of_forall {lits : Clause} {done : PUnit → Session → Prop}
    {failed : Failure LowerError → Session → Prop}
    (stored : ∀ clause, Clause.normalize session.top lits = .ok (some clause) →
      done ⟨⟩ { session with store := (session.store.insert clause).2 })
    (dropped : Clause.normalize session.top lits = .ok none → done ⟨⟩ session)
    (failures : ∀ fault, Clause.normalize session.top lits = .error fault →
      failed (.fault fault) session) :
    Stateful.Meets (addClause lits) session done failed := by
  unfold addClause
  rw [Stateful.meets_bind, Stateful.meets_get, Stateful.meets_bind, Stateful.meets_ofExcept]
  cases normal : Clause.normalize session.top lits with
  | error fault => exact failures fault normal
  | ok result =>
    cases result with
    | none => exact dropped normal
    | some clause => exact stored clause normal

/-- A clause is a demand on assignments, whatever is left of it. Only sessions with too
many variables refuse clauses. -/
theorem addClause_emits (closed : session.Closed) {lits : Clause}
    (ranged : ∀ lit ∈ lits, lit.var ≤ session.numVars) :
    Stateful.Meets (addClause lits) session
      (fun _ after => session.Emits after 0 (Clause.Holds · lits))
      fun _ after => after = session ∧ ¬session.Live := by
  refine meets_addClause_of_forall (fun clause normal => ?stored) (fun normal => ?dropped)
    fun fault normal => ⟨rfl, fun live => ?refused⟩
  case stored =>
    obtain ⟨members, means⟩ := Clause.normalize_means normal
    have emits := keep_emits closed fun lit member => ranged lit (members clause rfl lit member)
    refine ⟨rfl, fun truth => ?_, emits.closed, rfl, rfl⟩
    rw [emits.satisfied_iff]
    refine and_congr_right fun satisfied => ?_
    simpa using (means truth (closed.top_holds satisfied)).symm
  case dropped =>
    refine ⟨rfl, fun truth => ⟨fun satisfied => ⟨satisfied, ?_⟩, And.left⟩, closed, rfl, rfl⟩
    exact ((Clause.normalize_means normal).2 truth (closed.top_holds satisfied)).mpr nofun
  case refused =>
    obtain ⟨_, same, -⟩ := Clause.normalize_spec session.top fun lit member =>
      Lit.neg_eq ((ranged lit member).trans_lt live)
    cases normal.symm.trans same

theorem addClause_succeeds (closed : session.Closed) {lits : Clause}
    (ranged : ∀ lit ∈ lits, lit.var ≤ session.numVars) :
    Succeeds (addClause lits) session fun _ after => session.Emits after 0 (Clause.Holds · lits) := by
  refine Stateful.Meets.mono (addClause_emits closed ranged) (fun _ _ emits _ => emits) ?_
  rintro _ _ ⟨rfl, notLive⟩ live
  exact absurd live notLive

/-- Several clauses are stored one by one. -/
theorem forM_addClause_succeeds {items : List α} {step : α → Lower PUnit} {clauseOf : α → Clause}
    [∀ item, Grows (step item)] (closed : session.Closed)
    (isClause : ∀ item ∈ items, step item = addClause (clauseOf item))
    (ranged : ∀ item ∈ items, ∀ lit ∈ clauseOf item, lit.var ≤ session.numVars) :
    Succeeds (items.forM step) session fun _ after =>
      session.Emits after 0 fun truth => ∀ item ∈ items, Clause.Holds truth (clauseOf item) := by
  induction items generalizing session with
  | nil => exact Runs.pure fun _ => (Session.Emits.refl closed).congr fun truth => by simp
  | cons item items inductionHypothesis =>
    rw [List.forM, isClause item List.mem_cons_self]
    refine (addClause_succeeds closed (ranged item List.mem_cons_self)).bind ?_
    intro _ middle _ emits
    have sameVars : middle.numVars = session.numVars := emits.numVars_eq
    refine (inductionHypothesis emits.closed
      (fun other member => isClause other (List.mem_cons_of_mem item member))
      fun other member => sameVars ▸ ranged other (List.mem_cons_of_mem item member)).mono ?_
    intro _ after _ others
    exact (emits.trans others).congr fun truth => by simp

section Emitting

variable {before : Session} {count : Nat} {condition : Assignment → Prop} {next : PUnit → Lower β}
  {done : β → Session → Prop} {refused : LowerError → Session → Prop}
  [∀ result, Grows (next result)]

/-- A clause is added to those that were emitted since an earlier session. -/
theorem Runs.addClause {lits : Clause} (emitted : before.Emits session count condition)
    (ranged : ∀ lit ∈ lits, lit.var ≤ before.numVars + count)
    (rest : ∀ after, after.Live →
      before.Emits after count (fun truth => condition truth ∧ Clause.Holds truth lits) →
        Runs (next ⟨⟩) after done refused) :
    Runs (Lower.addClause lits >>= next) session done refused := by
  refine (Succeeds.mono (addClause_succeeds emitted.closed ?_) fun _ _ _ => id).bind ?_
  · exact emitted.numVars_eq ▸ ranged
  · exact fun _ after afterLive emits => rest after afterLive (emitted.trans emits)

/-- Clauses are added to those that were emitted since an earlier session. -/
theorem Runs.forM_addClause {items : List α} {step : α → Lower PUnit} {clauseOf : α → Clause}
    [∀ item, Grows (step item)] (emitted : before.Emits session count condition)
    (isClause : ∀ item ∈ items, step item = Lower.addClause (clauseOf item))
    (ranged : ∀ item ∈ items, ∀ lit ∈ clauseOf item, lit.var ≤ before.numVars + count)
    (rest : ∀ after, after.Live →
      before.Emits after count
        (fun truth => condition truth ∧ ∀ item ∈ items, Clause.Holds truth (clauseOf item)) →
        Runs (next ⟨⟩) after done refused) :
    Runs (items.forM step >>= next) session done refused := by
  refine (Succeeds.mono (forM_addClause_succeeds emitted.closed isClause ?_)
    fun _ _ _ => id).bind ?_
  · exact emitted.numVars_eq ▸ ranged
  · exact fun _ after afterLive emits => rest after afterLive (emitted.trans emits)

end Emitting

end Primitives

section Gates

variable {session : Session} {inputs : List Lit}

theorem mapM_neg (live : session.Live) (ranged : ∀ lit ∈ inputs, lit.var ≤ session.numVars) :
    inputs.mapM neg = pure (inputs.map Lit.opposite) := by
  rw [mapM_congr fun lit member => neg_eq_pure live (ranged lit member), List.mapM_pure]

/-- The output of a conjunction is true if all inputs are. -/
theorem andGate_succeeds (closed : session.Closed)
    (ranged : ∀ lit ∈ inputs, lit.var ≤ session.numVars) :
    Succeeds (andGate inputs) session fun out after => session.Defines after ∧
      after.Tracks [out] fun truth => [(inputs.map (Lit.holds truth)).all id] := by
  unfold andGate
  split
  · exact Runs.pure fun _ => ⟨refl session, ranged, by simp⟩
  · refine (fresh_succeeds closed).bind ?_
    rintro _ first firstLive ⟨made, rfl⟩
    have later : ∀ lit ∈ inputs, lit.var ≤ session.numVars + 1 := fun lit member =>
      (ranged lit member).trans (Nat.le_succ _)
    rw [neg_eq_pure firstLive (by simp [made.numVars_eq]), pure_bind]
    refine Runs.forM_addClause made (fun _ _ => rfl) ?_ fun second secondLive implied => ?_
    · simpa using later
    rw [mapM_neg secondLive (implied.numVars_eq ▸ later), pure_bind]
    refine Runs.addClause implied ?_ fun after _ forced => Runs.pure fun _ => ?_
    · simpa using later
    refine Session.Emits.gate (·.all id) closed ranged (forced.congr fun truth => ?_)
    cases value : truth (session.numVars + 1)
    · simp [Clause.Holds, value]
    · simp [Clause.Holds, value]

/-- The output of a disjunction is true if some input is. -/
theorem orGate_succeeds (closed : session.Closed)
    (ranged : ∀ lit ∈ inputs, lit.var ≤ session.numVars) :
    Succeeds (orGate inputs) session fun out after => session.Defines after ∧
      after.Tracks [out] fun truth => [(inputs.map (Lit.holds truth)).any id] := by
  unfold orGate
  split
  · exact Runs.pure fun _ => ⟨refl session, ranged, by simp⟩
  · refine (fresh_succeeds closed).bind ?_
    rintro out first firstLive ⟨made, rfl⟩
    have later : ∀ lit ∈ inputs, lit.var ≤ session.numVars + 1 := fun lit member =>
      (ranged lit member).trans (Nat.le_succ _)
    have steps : ∀ input ∈ inputs, (do
        let opposite ← neg input
        addClause [Lit.positive (session.numVars + 1) (Nat.succ_pos _), opposite]) =
          addClause [Lit.positive (session.numVars + 1) (Nat.succ_pos _), input.opposite] := by
      intro input member
      rw [neg_eq_pure firstLive (made.numVars_eq ▸ later input member), pure_bind]
    refine Runs.forM_addClause made steps ?_ fun second secondLive implied => ?_
    · simpa using later
    rw [neg_eq_pure secondLive (by simp [implied.numVars_eq]), pure_bind]
    refine Runs.addClause implied ?_ fun after _ forced => Runs.pure fun _ => ?_
    · simpa using later
    refine Session.Emits.gate (·.any id) closed ranged (forced.congr fun truth => ?_)
    cases value : truth (session.numVars + 1)
    · simp [Clause.Holds, value]
    · simp [Clause.Holds, value]

/-- The output of an exclusive disjunction is true if the inputs differ. -/
theorem xorGate_succeeds {a b : Lit} (closed : session.Closed)
    (aRanged : a.var ≤ session.numVars) (bRanged : b.var ≤ session.numVars) :
    Succeeds (xorGate a b) session fun out after => session.Defines after ∧
      after.Tracks [out] fun truth => [a.holds truth != b.holds truth] := by
  unfold xorGate
  refine (fresh_succeeds closed).bind ?_
  rintro out first firstLive ⟨made, rfl⟩
  have aLater := aRanged.trans (Nat.le_succ _)
  have bLater := bRanged.trans (Nat.le_succ _)
  rw [neg_eq_pure firstLive (by simp [made.numVars_eq]), pure_bind,
    neg_eq_pure firstLive (made.numVars_eq ▸ aLater), pure_bind,
    neg_eq_pure firstLive (made.numVars_eq ▸ bLater), pure_bind]
  refine Runs.addClause made (by simp [aLater, bLater]) fun second _ once => ?_
  refine Runs.addClause once (by simp [aLater, bLater]) fun third _ twice => ?_
  refine Runs.addClause twice (by simp [aLater, bLater]) fun fourth _ thrice => ?_
  refine Runs.addClause thrice (by simp [aLater, bLater]) fun after _ all =>
    Runs.pure fun _ => ?_
  have inputRanged : ∀ lit ∈ [a, b], lit.var ≤ session.numVars := by simp [aRanged, bRanged]
  refine Session.Emits.gate (fun values => values.getD 0 false != values.getD 1 false) closed
    inputRanged (all.congr fun truth => ?_)
  cases value : truth (session.numVars + 1) <;> cases aHolds : a.holds truth <;>
    cases bHolds : b.holds truth <;> simp [Clause.Holds, value, aHolds, bHolds]

/-- The literal that is true. -/
theorem top_succeeds (closed : session.Closed) :
    Succeeds top session fun lit after =>
      session.Defines after ∧ after.Tracks [lit] fun _ => [true] := by
  refine Runs.get ?_
  split
  · rename_i lit isTop
    refine Runs.pure fun _ => ⟨refl session, ?_, fun truth satisfied => ?_⟩
    · exact closed.ranged [lit] (closed.top lit isTop)
    · simp [closed.top_holds satisfied lit isTop]
  · refine (fresh_succeeds closed).bind ?_
    rintro lit first firstLive ⟨made, rfl⟩
    refine Runs.change (Runs.change (Runs.pure fun _ => ?_))
    set lit := Lit.positive (session.numVars + 1) (Nat.succ_pos _)
    have marked := keep_top_emits made.closed (by simp [lit, made.numVars_eq] : lit.var ≤ first.numVars)
    refine Session.Emits.gate (fun _ => true) closed (by simp : ∀ other ∈ [], _) ?_
    exact (made.trans marked).congr fun truth => by simp [Clause.Holds, lit]

/-- The output tells whether two literals agree. -/
theorem agreement_succeeds {a b : Lit} (closed : session.Closed)
    (aRanged : a.var ≤ session.numVars) (bRanged : b.var ≤ session.numVars) :
    Succeeds (agreement a b) session fun out after => session.Defines after ∧
      after.Tracks [out] fun truth => [a.holds truth == b.holds truth] := by
  refine (xorGate_succeeds closed aRanged bRanged).bind ?_
  rintro differ after live ⟨defines, tracks⟩
  rw [neg_eq_pure live (tracks.ranged differ List.mem_cons_self)]
  refine Runs.pure fun _ => ⟨defines, ?_, fun truth satisfied => ?_⟩
  · simpa using tracks.ranged
  · have means := tracks.means truth satisfied
    simp only [List.map_cons, List.map_nil, List.cons.injEq, and_true] at means
    simp only [List.map_cons, List.map_nil, Lit.holds_opposite, means]
    cases a.holds truth <;> cases b.holds truth <;> rfl

/-- Literals that each have a known truth value. -/
theorem tracks_of_forall₂ {items : List α} {lits : List Lit} {value : Assignment → α → Bool}
    (each : List.Forall₂ (fun item lit => session.Tracks [lit] fun truth => [value truth item])
      items lits) : session.Tracks lits fun truth => items.map (value truth) := by
  induction each with
  | nil => exact ⟨nofun, fun _ _ => rfl⟩
  | cons tracks _ inductionHypothesis =>
    refine ⟨?_, fun truth satisfied => ?_⟩
    · exact List.forall_mem_cons.mpr ⟨tracks.ranged _ List.mem_cons_self, inductionHypothesis.ranged⟩
    · have means := tracks.means truth satisfied
      simp only [List.map_cons, List.map_nil, List.cons.injEq, and_true] at means
      simp [means, inductionHypothesis.means truth satisfied]

/-- The outputs tell where two rows of literals agree. -/
theorem agreements_succeeds {xs ys : Array Lit} (closed : session.Closed) (live : session.Live)
    (xRanged : ∀ lit ∈ xs, lit.var ≤ session.numVars)
    (yRanged : ∀ lit ∈ ys, lit.var ≤ session.numVars) :
    Succeeds (agreements xs ys) session fun outs after => session.Defines after ∧
      after.Tracks outs fun truth =>
        (xs.toList.zip ys.toList).map fun pair => pair.1.holds truth == pair.2.holds truth := by
  unfold agreements
  refine Succeeds.mono (Runs.mapM Session.Defines (fun pair lit after =>
    after.Tracks [lit] fun truth => [pair.1.holds truth == pair.2.holds truth]) ?_ live ?_) ?_
  · exact fun _ _ _ _ defines tracks => tracks.later defines
  · rintro ⟨x, y⟩ member after afterLive defines
    obtain ⟨xMember, yMember⟩ := List.of_mem_zip member
    refine agreement_succeeds (defines.closed closed) ?_ ?_
    · exact (xRanged x (by simpa using xMember)).trans defines.numVars_le
    · exact (yRanged y (by simpa using yMember)).trans defines.numVars_le
  · exact fun _ _ _ ⟨defines, each⟩ => ⟨defines, tracks_of_forall₂ each⟩

/-- The literals of a constant have its bits. -/
theorem constantBits_succeeds {ty : Ty} {value : Value} (closed : session.Closed)
    (admitted : ty.admits value) :
    Succeeds (constantBits ty value) session fun lits after => session.Defines after ∧
      lits.size = ty.bitSize ∧ after.Tracks lits.toList fun _ => ty.encode value := by
  refine (top_succeeds closed).bind ?_
  rintro yes after live ⟨defines, tracks⟩
  have yesRanged : yes.var ≤ after.numVars := tracks.ranged yes List.mem_cons_self
  rw [neg_eq_pure live yesRanged, pure_bind]
  refine Runs.ofExcept (if_pos admitted) (Runs.pure fun _ => ⟨defines, ?_, ?_, fun truth satisfied => ?_⟩)
  · simp [Ty.length_encode ty value admitted]
  · intro lit member
    obtain ⟨bit, -, rfl⟩ := List.mem_map.mp member
    cases bit <;> simpa using yesRanged
  · have yesHolds : yes.holds truth = true := by simpa using tracks.means truth satisfied
    rw [List.map_map, List.map_congr_left, List.map_id]
    intro bit _
    cases bit <;> simp [yesHolds]

end Gates

end Lower

end Clausal
