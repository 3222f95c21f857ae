import Mathlib
import Clausal.Fault

/-!
# Outcomes of stateful computations

`Stateful.Meets` says what holds when a computation ends, separately for its
results and for its failures. It is an equivalence at every operation of the
monad, so a computation is taken apart by rewriting.

Most computations only ever add to their state. `Stateful.Yields` is about one
that succeeds, `Stateful.Tries` about one that may fail if it has an excuse, and
`Stateful.Keeps` about one of which nothing is known but that; all carry a preorder
that relates every state to the later ones.
-/

namespace Clausal

section Lists

variable {ε α β : Type}

/-- A sequence of two computations succeeds exactly when both do. -/
theorem bind_eq_ok_iff {first : Except ε α} {next : α → Except ε β} {result : β} :
    (first >>= next) = .ok result ↔ ∃ middle, first = .ok middle ∧ next middle = .ok result := by
  cases first <;> simp [bind, Except.bind]

theorem mapError_eq_ok_iff {δ : Type} {source : Except ε α} {change : ε → δ} {result : α} :
    source.mapError change = .ok result ↔ source = .ok result := by
  cases source <;> simp [Except.mapError]

/-- A computation over a list succeeds exactly when it does at every item. -/
theorem mapM_eq_ok_iff {step : α → Except ε β} {items : List α} {results : List β} :
    items.mapM step = .ok results ↔
      List.Forall₂ (fun item result => step item = .ok result) items results := by
  induction items generalizing results with
  | nil => simp [pure, Except.pure, eq_comm]
  | cons item items inductionHypothesis =>
    rw [List.mapM_cons, List.forall₂_cons_left_iff]
    simp only [← inductionHypothesis, bind, Except.bind, pure, Except.pure]
    cases step item <;> cases items.mapM step <;> simp [eq_comm]

/-- A partial function is defined on a list exactly when it is on every item. -/
theorem mapM_eq_some_iff {step : α → Option β} {items : List α} {results : List β} :
    items.mapM step = some results ↔
      List.Forall₂ (fun item result => step item = some result) items results := by
  induction items generalizing results with
  | nil => simp [pure, eq_comm]
  | cons item items inductionHypothesis =>
    rw [List.mapM_cons, List.forall₂_cons_left_iff]
    simp only [← inductionHypothesis, bind, Option.bind, pure]
    cases step item <;> cases items.mapM step <;> simp [eq_comm]

/-- Items that are each related to something have a list that they are related to. -/
theorem exists_forall₂ {related : α → β → Prop} {items : List α}
    (each : ∀ item ∈ items, ∃ other, related item other) :
    ∃ others, List.Forall₂ related items others := by
  induction items with
  | nil => exact ⟨[], .nil⟩
  | cons item items inductionHypothesis =>
    obtain ⟨other, holds⟩ := each item List.mem_cons_self
    obtain ⟨others, rest⟩ := inductionHypothesis fun next member =>
      each next (List.mem_cons_of_mem item member)
    exact ⟨other :: others, .cons holds rest⟩

/-- A partial function that is not defined on a list is not defined on an item. -/
theorem exists_of_mapM_eq_none {step : α → Option β} {items : List α}
    (missing : items.mapM step = none) : ∃ item ∈ items, step item = none := by
  by_contra! defined
  obtain ⟨results, each⟩ : ∃ results, items.mapM step = some results := by
    simp only [mapM_eq_some_iff]
    exact exists_forall₂ fun item member => Option.ne_none_iff_exists'.mp (defined item member)
  simp [missing] at each

/-- Membership proofs attached to the items do not change what a monadic step
does. -/
theorem mapM_attach {m : Type → Type} [Monad m] [LawfulMonad m] (items : List α)
    (step : α → m β) : (items.attach.mapM fun item => step item.1) = items.mapM step := by
  conv_rhs => rw [← List.attach_map_subtype_val items, List.mapM_map]
  rfl

theorem forM_attach {m : Type → Type} [Monad m] [LawfulMonad m] (items : List α)
    (step : α → m PUnit) : (items.attach.forM fun item => step item.1) = items.forM step := by
  conv_rhs => rw [← List.attach_map_subtype_val items]
  exact List.forM_map.symm

/-- Every item of the left list is related to an item of the right one. -/
theorem exists_of_forall₂_of_mem {related : α → β → Prop} {left : List α} {right : List β}
    (each : List.Forall₂ related left right) {item : α} (member : item ∈ left) :
    ∃ other ∈ right, related item other := by
  induction each with
  | nil => cases member
  | @cons first other items others holds _ inductionHypothesis =>
    rcases List.mem_cons.mp member with rfl | member
    · exact ⟨other, List.mem_cons_self, holds⟩
    · obtain ⟨found, foundMember, foundHolds⟩ := inductionHypothesis member
      exact ⟨found, List.mem_cons_of_mem other foundMember, foundHolds⟩

/-- Related lists are related at every position. -/
theorem exists_getElem?_of_forall₂ {related : α → β → Prop} {left : List α} {right : List β}
    (each : List.Forall₂ related left right) {index : Nat} {item : α}
    (found : left[index]? = some item) : ∃ other, right[index]? = some other ∧ related item other := by
  induction each generalizing index with
  | nil => simp at found
  | cons holds _ inductionHypothesis =>
    cases index with
    | zero =>
      cases found
      exact ⟨_, rfl, holds⟩
    | succ index => exact inductionHypothesis found

theorem entry_eq_ok_iff {items : List α} {index : Nat} {item : α} :
    entry items index = .ok item ↔ items[index]? = some item := by
  unfold entry
  split <;> simp_all

/-- The first entries of a list are found exactly if there are as many. -/
theorem front_eq_ok_iff {items part : List α} {count : Nat} :
    front items count = .ok part ↔ count ≤ items.length ∧ items.take count = part := by
  unfold front
  split <;> simp_all

/-- A part of an array is found exactly if all of it is there. -/
theorem slice_eq_ok_iff {items part : Array α} {position count : Nat} :
    slice items position count = .ok part ↔
      position + count ≤ items.size ∧ items.extract position (position + count) = part := by
  unfold slice
  split <;> simp_all

/-- Lists are related if they are equally long and related at every position. -/
theorem forall₂_iff_getElem? {related : α → β → Prop} {left : List α} {right : List β} :
    List.Forall₂ related left right ↔ left.length = right.length ∧
      ∀ (index : Nat) (item : α) (other : β), left[index]? = some item → right[index]? = some other →
        related item other := by
  constructor
  · refine fun each => ⟨each.length_eq, fun index item other found otherFound => ?_⟩
    obtain ⟨same, sameFound, holds⟩ := exists_getElem?_of_forall₂ each found
    rw [sameFound] at otherFound
    cases otherFound
    exact holds
  · rintro ⟨length_eq, each⟩
    refine List.forall₂_iff_get.mpr ⟨length_eq, fun index left right => each index _ _ ?_ ?_⟩
    · exact List.getElem?_eq_getElem left
    · exact List.getElem?_eq_getElem right

/-- The first entries of a list are those at the first positions. -/
theorem forall₂_range_take {items : List α} {count : Nat} (enough : count ≤ items.length) :
    List.Forall₂ (fun index item => items[index]? = some item) (List.range count)
      (items.take count) := by
  refine forall₂_iff_getElem?.mpr ⟨by simp [enough], fun index position item inside found => ?_⟩
  obtain ⟨small, rfl⟩ := List.getElem?_eq_some_iff.mp inside
  rw [List.getElem_range]
  rwa [List.getElem?_take_of_lt (by simpa using small)] at found

section Short

variable {related : α → β → Prop} {a b c : α} {others : List β}

theorem forall₂_one : List.Forall₂ related [a] others ↔ ∃ x, related a x ∧ others = [x] := by
  simp [List.forall₂_cons_left_iff]

theorem forall₂_two :
    List.Forall₂ related [a, b] others ↔ ∃ x y, related a x ∧ related b y ∧ others = [x, y] := by
  simp [List.forall₂_cons_left_iff]

theorem forall₂_three :
    List.Forall₂ related [a, b, c] others ↔
      ∃ x y z, related a x ∧ related b y ∧ related c z ∧ others = [x, y, z] := by
  simp [List.forall₂_cons_left_iff, and_assoc]

end Short

/-- What relates the items of two lists may be weakened. -/
theorem forall₂_imp_of_mem {related weaker : α → β → Prop} {left : List α} {right : List β}
    (each : List.Forall₂ related left right)
    (imp : ∀ item ∈ left, ∀ other, related item other → weaker item other) :
    List.Forall₂ weaker left right := by
  induction each with
  | nil => exact .nil
  | @cons first other items others holds _ inductionHypothesis =>
    exact .cons (imp first List.mem_cons_self other holds)
      (inductionHypothesis fun item member => imp item (List.mem_cons_of_mem first member))

/-- Two lists related to a third one are related to each other. -/
theorem forall₂_join {γ : Type} {leftRelated : α → β → Prop} {rightRelated : α → γ → Prop}
    {related : β → γ → Prop} {items : List α} {left : List β} {right : List γ}
    (leftEach : List.Forall₂ leftRelated items left)
    (rightEach : List.Forall₂ rightRelated items right)
    (join : ∀ item ∈ items, ∀ first second, leftRelated item first → rightRelated item second →
      related first second) : List.Forall₂ related left right := by
  induction leftEach generalizing right with
  | nil =>
    cases rightEach
    exact .nil
  | @cons item first items left holds _ inductionHypothesis =>
    cases rightEach with
    | cons otherHolds rightEach =>
      exact .cons (join item List.mem_cons_self _ _ holds otherHolds)
        (inductionHypothesis rightEach fun next member =>
          join next (List.mem_cons_of_mem item member))

theorem forall_mem_iff_of_forall₂ {left : List α} {right : List β} {holds : α → Prop}
    {otherHolds : β → Prop}
    (each : List.Forall₂ (fun item other => holds item ↔ otherHolds other) left right) :
    (∀ item ∈ left, holds item) ↔ ∀ other ∈ right, otherHolds other := by
  induction each with
  | nil => simp
  | cons same _ inductionHypothesis =>
    rw [List.forall_mem_cons, List.forall_mem_cons, same, inductionHypothesis]

/-- A monadic step is applied to the items of a list only. -/
theorem mapM_congr {m : Type → Type} [Monad m] [LawfulMonad m] {step other : α → m β}
    {items : List α} (same : ∀ item ∈ items, step item = other item) :
    items.mapM step = items.mapM other := by
  induction items with
  | nil => rfl
  | cons item items inductionHypothesis =>
    rw [List.mapM_cons, List.mapM_cons, same item List.mem_cons_self,
      inductionHypothesis fun next member => same next (List.mem_cons_of_mem item member)]

end Lists

namespace Stateful

variable {ε σ α β : Type}

/-- The state in which a computation ends, whether it succeeds or fails. -/
def final (action : Stateful ε σ α) (state : σ) : σ :=
  match action state with
  | .ok _ after => after
  | .error _ after => after

/-- A computation ends with `done` of its result and state, or with `failed` of
its failure and state. -/
def Meets (action : Stateful ε σ α) (state : σ) (done : α → σ → Prop)
    (failed : Failure ε → σ → Prop) : Prop :=
  match action state with
  | .ok result after => done result after
  | .error failure after => failed failure after

section Operations

variable {state : σ} {failed : Failure ε → σ → Prop}

@[simp] theorem meets_pure {result : α} {done : α → σ → Prop} :
    Meets (pure result : Stateful ε σ α) state done failed ↔ done result state :=
  Iff.rfl

@[simp] theorem meets_bind {action : Stateful ε σ α} {next : α → Stateful ε σ β}
    {done : β → σ → Prop} :
    Meets (action >>= next) state done failed ↔
      Meets action state (fun result after => Meets (next result) after done failed) failed := by
  simp only [Meets, bind, EStateM.bind]
  cases action state <;> rfl

@[simp] theorem meets_get {done : σ → σ → Prop} :
    Meets (get : Stateful ε σ σ) state done failed ↔ done state state :=
  Iff.rfl

@[simp] theorem meets_modify {change : σ → σ} {done : PUnit → σ → Prop} :
    Meets (modify change : Stateful ε σ PUnit) state done failed ↔ done ⟨⟩ (change state) :=
  Iff.rfl

@[simp] theorem meets_throw {failure : Failure ε} {done : α → σ → Prop} :
    Meets (throw failure : Stateful ε σ α) state done failed ↔ failed failure state :=
  Iff.rfl

@[simp] theorem meets_fail {cause : ε} {done : α → σ → Prop} :
    Meets (fail cause : Stateful ε σ α) state done failed ↔ failed (.error cause) state :=
  Iff.rfl

@[simp] theorem meets_breach {fault : Fault} {done : α → σ → Prop} :
    Meets (breach fault : Stateful ε σ α) state done failed ↔ failed (.fault fault) state :=
  Iff.rfl

/-- A computation without state either has a result or ends with its fault. -/
theorem meets_ofExcept {source : Except Fault α} {done : α → σ → Prop} :
    Meets (ofExcept source : Stateful ε σ α) state done failed ↔
      match source with
      | .ok result => done result state
      | .error fault => failed (.fault fault) state := by
  cases source <;> rfl

@[simp] theorem meets_ofExcept_ok {result : α} {done : α → σ → Prop} :
    Meets (ofExcept (.ok result) : Stateful ε σ α) state done failed ↔ done result state :=
  Iff.rfl

end Operations

theorem meets_iff_of_ok {action : Stateful ε σ α} {state after : σ} {done : α → σ → Prop}
    {failed : Failure ε → σ → Prop} {result : α} (ended : action state = .ok result after) :
    Meets action state done failed ↔ done result after := by
  unfold Meets
  rw [ended]

theorem meets_iff_of_error {action : Stateful ε σ α} {state after : σ} {done : α → σ → Prop}
    {failed : Failure ε → σ → Prop} {failure : Failure ε} (ended : action state = .error failure after) :
    Meets action state done failed ↔ failed failure after := by
  unfold Meets
  rw [ended]

/-- What an outcome implies may be weakened. -/
theorem Meets.mono {action : Stateful ε σ α} {state : σ} {done weaker : α → σ → Prop}
    {failed weakerFailed : Failure ε → σ → Prop} (meets : Meets action state done failed)
    (results : ∀ result after, done result after → weaker result after)
    (failures : ∀ failure after, failed failure after → weakerFailed failure after) :
    Meets action state weaker weakerFailed := by
  unfold Meets at *
  split
  · rename_i result after ended
    rw [ended] at meets
    exact results _ _ meets
  · rename_i failure after ended
    rw [ended] at meets
    exact failures _ _ meets

/-- A computation that does not fail has a result. -/
theorem Meets.exists_ok {action : Stateful ε σ α} {state : σ} {done : α → σ → Prop}
    (meets : Meets action state done fun _ _ => False) :
    ∃ result after, action state = .ok result after ∧ done result after := by
  unfold Meets at meets
  split at meets
  · rename_i result after ended
    exact ⟨result, after, ended, meets⟩
  · exact meets.elim

/-- What a computation meets holds of the result that it has. -/
theorem Meets.of_ok {action : Stateful ε σ α} {state after : σ} {done : α → σ → Prop}
    {failed : Failure ε → σ → Prop} {result : α} (meets : Meets action state done failed)
    (ended : action state = .ok result after) : done result after :=
  (meets_iff_of_ok ended).mp meets

/-- What a computation meets holds of the failure that it ends with. -/
theorem Meets.of_error {action : Stateful ε σ α} {state after : σ} {done : α → σ → Prop}
    {failed : Failure ε → σ → Prop} {failure : Failure ε} (meets : Meets action state done failed)
    (ended : action state = .error failure after) : failed failure after :=
  (meets_iff_of_error ended).mp meets

/-- A sequence of two computations ends well exactly when both do. -/
theorem bind_eq_ok {action : Stateful ε σ α} {next : α → Stateful ε σ β} {state last : σ} {result : β} :
    (action >>= next) state = .ok result last ↔
      ∃ middle after, action state = .ok middle after ∧ next middle after = .ok result last := by
  simp only [bind, EStateM.bind]
  cases action state <;> simp

theorem get_bind (next : σ → Stateful ε σ β) (state : σ) :
    (get >>= next) state = next state state :=
  rfl

/-- A sequence of two computations fails exactly when one of them does. -/
theorem bind_eq_error {action : Stateful ε σ α} {next : α → Stateful ε σ β} {state last : σ}
    {failure : Failure ε} :
    (action >>= next) state = .error failure last ↔
      action state = .error failure last ∨
        ∃ middle after, action state = .ok middle after ∧ next middle after = .error failure last := by
  simp only [bind, EStateM.bind]
  cases action state <;> simp

theorem ofExcept_eq_ok {source : Except Fault α} {state last : σ} {result : α} :
    (ofExcept source : Stateful ε σ α) state = .ok result last ↔ source = .ok result ∧ last = state := by
  cases source with
  | ok found =>
    constructor
    · rintro ⟨⟩
      exact ⟨rfl, rfl⟩
    · rintro ⟨⟨⟩, rfl⟩
      rfl
  | error fault => exact iff_of_false nofun nofun

/-- Wherever a computation ends well, another one ends in the same way. -/
def Approximates (action other : Stateful ε σ α) : Prop :=
  ∀ ⦃state last : σ⦄ ⦃result : α⦄, action state = .ok result last → other state = .ok result last

namespace Approximates

theorem refl (action : Stateful ε σ α) : Approximates action action :=
  fun _ _ _ ended => ended

theorem trans {first second third : Stateful ε σ α} (earlier : Approximates first second)
    (later : Approximates second third) : Approximates first third :=
  fun _ _ _ ended => later (earlier ended)

theorem bind {action other : Stateful ε σ α} {next otherNext : α → Stateful ε σ β}
    (first : Approximates action other) (rest : ∀ result, Approximates (next result) (otherNext result)) :
    Approximates (action >>= next) (other >>= otherNext) := by
  intro state last result ended
  obtain ⟨middle, after, isFirst, ended⟩ := bind_eq_ok.mp ended
  exact bind_eq_ok.mpr ⟨middle, after, first isFirst, rest middle ended⟩

theorem mapM {step other : α → Stateful ε σ β} {items : List α}
    (each : ∀ item ∈ items, Approximates (step item) (other item)) :
    Approximates (items.mapM step) (items.mapM other) := by
  induction items with
  | nil => exact .refl _
  | cons item items inductionHypothesis =>
    rw [List.mapM_cons, List.mapM_cons]
    refine (each item List.mem_cons_self).bind fun first => ?_
    refine bind (inductionHypothesis fun next member => each next (List.mem_cons_of_mem item member)) ?_
    exact fun rest => .refl _

end Approximates

section Preorder

variable (advance : σ → σ → Prop)

/-- A computation succeeds, its state advances, and `done` holds at the end. -/
def Yields (action : Stateful ε σ α) (state : σ) (done : α → σ → Prop) : Prop :=
  Meets action state (fun result after => advance state after ∧ done result after)
    fun _ _ => False

/-- The state of a computation advances. If the computation succeeds, `done` holds
at the end, and it fails only if it is excused. -/
def Tries (action : Stateful ε σ α) (state : σ) (done : α → σ → Prop) (excused : Prop) : Prop :=
  Meets action state (fun result after => advance state after ∧ done result after)
    fun _ after => advance state after ∧ excused

/-- The state of a computation advances, whether it succeeds or fails. -/
def Keeps (action : Stateful ε σ α) (state : σ) : Prop :=
  Meets action state (fun _ after => advance state after) fun _ after => advance state after

variable {advance}

/-- A computation that yields something has a result. -/
theorem Yields.exists_ok {action : Stateful ε σ α} {state : σ} {done : α → σ → Prop}
    (yields : Yields advance action state done) :
    ∃ result after, action state = .ok result after ∧ advance state after ∧ done result after :=
  Meets.exists_ok yields

/-- A computation that ended in a later state yields its result. -/
theorem Yields.of_ok {action : Stateful ε σ α} {state after : σ} {result : α}
    (ended : action state = .ok result after) (reached : advance state after) :
    Yields advance action state fun other last => other = result ∧ last = after :=
  (meets_iff_of_ok ended).mpr ⟨reached, rfl, rfl⟩

/-- What a computation yields may be weakened. -/
theorem Yields.mono {action : Stateful ε σ α} {state : σ} {done weaker : α → σ → Prop}
    (yields : Yields advance action state done)
    (results : ∀ result after, advance state after → done result after → weaker result after) :
    Yields advance action state weaker :=
  Meets.mono yields (fun result after reached => ⟨reached.1, results result after reached.1 reached.2⟩)
    fun _ _ impossible => impossible

/-- A computation that succeeds keeps the preorder. -/
theorem Yields.keeps {action : Stateful ε σ α} {state : σ} {done : α → σ → Prop}
    (yields : Yields advance action state done) : Keeps advance action state :=
  Meets.mono yields (fun _ _ reached => reached.1) fun _ _ impossible => impossible.elim

section Excused

variable {action : Stateful ε σ α} {state : σ} {done weaker : α → σ → Prop} {excused further : Prop}

theorem Yields.tries (yields : Yields advance action state done) :
    Tries advance action state done excused :=
  Meets.mono yields (fun _ _ reached => reached) fun _ _ impossible => impossible.elim

/-- A computation without an excuse succeeds. -/
theorem Tries.yields (tries : Tries advance action state done excused) (unexcused : ¬ excused) :
    Yields advance action state done :=
  Meets.mono tries (fun _ _ reached => reached) fun _ _ failed => unexcused failed.2

theorem Tries.keeps (tries : Tries advance action state done excused) : Keeps advance action state :=
  Meets.mono tries (fun _ _ reached => reached.1) fun _ _ failed => failed.1

theorem Keeps.tries (keeps : Keeps advance action state) :
    Tries advance action state (fun _ _ => True) True :=
  Meets.mono keeps (fun _ _ reached => ⟨reached, trivial⟩) fun _ _ reached => ⟨reached, trivial⟩

theorem Tries.mono (tries : Tries advance action state done excused)
    (results : ∀ result after, advance state after → done result after → weaker result after)
    (excuse : excused → further) : Tries advance action state weaker further :=
  Meets.mono tries (fun result after reached => ⟨reached.1, results result after reached.1 reached.2⟩)
    fun _ _ failed => ⟨failed.1, excuse failed.2⟩

/-- Another excuse may be given. -/
theorem Tries.excuse (tries : Tries advance action state done excused) (excuse : excused → further) :
    Tries advance action state done further :=
  tries.mono (fun _ _ _ => id) excuse

/-- A weaker preorder may be kept. -/
theorem Tries.weaken {other : σ → σ → Prop} (tries : Tries advance action state done excused)
    (imp : ∀ before after, advance before after → other before after) :
    Tries other action state done excused :=
  Meets.mono tries (fun _ after reached => ⟨imp state after reached.1, reached.2⟩)
    fun _ after failed => ⟨imp state after failed.1, failed.2⟩

/-- What is known of the result, if there is one, and how it came about. -/
theorem Tries.of_ok {after : σ} {result : α} (tries : Tries advance action state done excused)
    (ended : action state = .ok result after) : advance state after ∧ done result after :=
  (meets_iff_of_ok ended).mp tries

theorem Tries.of_error {after : σ} {failure : Failure ε} (failed : action state = .error failure after)
    (reached : advance state after) (excuse : excused) : Tries advance action state done excused := by
  unfold Tries Meets
  rw [failed]
  exact ⟨reached, excuse⟩

theorem Tries.ran (tries : Tries advance action state done excused) :
    Tries advance action state (fun result after => done result after ∧ action state = .ok result after)
      excused := by
  unfold Tries Meets at *
  cases ended : action state with
  | ok result after =>
    rw [ended] at tries
    exact ⟨tries.1, tries.2, rfl⟩
  | error failure after =>
    rw [ended] at tries
    exact tries

theorem Yields.ran (yields : Yields advance action state done) :
    Yields advance action state fun result after =>
      done result after ∧ action state = .ok result after :=
  (yields.tries.ran).yields not_false

theorem Tries.get {next : σ → Stateful ε σ α} (rest : Tries advance (next state) state done excused) :
    Tries advance (MonadState.get >>= next) state done excused :=
  rest

end Excused

/-- A computation that keeps the preorder ends in a later state. -/
theorem Keeps.final {action : Stateful ε σ α} {state : σ} (keeps : Keeps advance action state) :
    advance state (final action state) := by
  unfold Keeps Meets at keeps
  unfold Stateful.final
  split at keeps <;> exact keeps

theorem keeps_of_final {action : Stateful ε σ α} {state : σ}
    (reached : advance state (Stateful.final action state)) : Keeps advance action state := by
  unfold Stateful.final at reached
  unfold Keeps Meets
  split at reached <;> exact reached

theorem Yields.get {next : σ → Stateful ε σ α} {state : σ} {done : α → σ → Prop}
    (rest : Yields advance (next state) state done) :
    Yields advance (MonadState.get >>= next) state done :=
  rest

theorem Keeps.get {next : σ → Stateful ε σ α} {state : σ}
    (rest : Keeps advance (next state) state) : Keeps advance (MonadState.get >>= next) state :=
  rest

theorem Yields.ofExcept {source : Except Fault α} {result : α} {next : α → Stateful ε σ β}
    {state : σ} {done : β → σ → Prop} (found : source = .ok result)
    (rest : Yields advance (next result) state done) :
    Yields advance (ofExcept source >>= next) state done := by
  subst found
  exact rest

section Sequences

variable [IsPreorder σ advance]

theorem Yields.pure {state : σ} {result : α} {done : α → σ → Prop} (holds : done result state) :
    Yields advance (Pure.pure result : Stateful ε σ α) state done :=
  ⟨refl state, holds⟩

theorem Keeps.pure {state : σ} {result : α} :
    Keeps advance (Pure.pure result : Stateful ε σ α) state :=
  refl (r := advance) state

theorem Keeps.throw {state : σ} {failure : Failure ε} :
    Keeps advance (throw failure : Stateful ε σ α) state :=
  refl (r := advance) state

theorem Keeps.ofExcept {source : Except Fault α} {next : α → Stateful ε σ β} {state : σ}
    (rest : ∀ result, source = .ok result → Keeps advance (next result) state) :
    Keeps advance (ofExcept source >>= next) state := by
  cases source with
  | ok result => exact rest result rfl
  | error fault => exact Keeps.throw

theorem Tries.pure {state : σ} {result : α} {done : α → σ → Prop} {excused : Prop}
    (holds : done result state) :
    Tries advance (Pure.pure result : Stateful ε σ α) state done excused :=
  ⟨refl state, holds⟩

theorem Tries.throw {state : σ} {failure : Failure ε} {done : α → σ → Prop} {excused : Prop}
    (excuse : excused) : Tries advance (throw failure : Stateful ε σ α) state done excused :=
  ⟨refl state, excuse⟩

theorem Tries.ofExcept {source : Except Fault α} {next : α → Stateful ε σ β} {state : σ}
    {done : β → σ → Prop} {excused : Prop} (excuse : excused)
    (rest : ∀ result, source = .ok result → Tries advance (next result) state done excused) :
    Tries advance (ofExcept source >>= next) state done excused := by
  cases source with
  | ok result => exact rest result rfl
  | error fault => exact Tries.throw excuse

/-- Computations with the same excuse follow each other. -/
theorem Tries.bind {action : Stateful ε σ α} {next : α → Stateful ε σ β} {state : σ}
    {middle : α → σ → Prop} {done : β → σ → Prop} {excused : Prop}
    (first : Tries advance action state middle excused)
    (second : ∀ result after, advance state after → middle result after →
      Tries advance (next result) after done excused) :
    Tries advance (action >>= next) state done excused := by
  unfold Tries at *
  rw [meets_bind]
  refine first.mono (fun result after reached => ?_) fun _ _ failed => failed
  exact (second result after reached.1 reached.2).mono
    (fun _ _ ended => ⟨IsTrans.trans _ _ _ reached.1 ended.1, ended.2⟩)
    fun _ _ ended => ⟨IsTrans.trans _ _ _ reached.1 ended.1, ended.2⟩

/-- Successful computations follow each other. -/
theorem Yields.bind {action : Stateful ε σ α} {next : α → Stateful ε σ β} {state : σ}
    {middle : α → σ → Prop} {done : β → σ → Prop} (first : Yields advance action state middle)
    (second : ∀ result after, advance state after → middle result after →
      Yields advance (next result) after done) :
    Yields advance (action >>= next) state done :=
  (first.tries.bind fun result after reached holds => (second result after reached holds).tries).yields
    not_false

/-- Computations that keep the preorder follow each other. -/
theorem Keeps.bind {action : Stateful ε σ α} {next : α → Stateful ε σ β} {state : σ}
    (first : Keeps advance action state)
    (second : ∀ result after, advance state after → Keeps advance (next result) after) :
    Keeps advance (action >>= next) state := by
  unfold Keeps at *
  rw [meets_bind]
  refine first.mono (fun result after reached => ?_) fun _ _ reached => reached
  exact (second result after reached).mono
    (fun _ _ ended => IsTrans.trans _ _ _ reached ended)
    fun _ _ ended => IsTrans.trans _ _ _ reached ended

/-- A step for every item of a list gives one result for every item. What relates an
item to its result must survive the steps behind it. -/
theorem Tries.mapM {step : α → Stateful ε σ β} {items : List α} {state : σ} {excused : Prop}
    (related : α → β → σ → Prop)
    (stable : ∀ item result before after, advance before after →
      related item result before → related item result after)
    (each : ∀ item ∈ items, ∀ after, advance state after →
      Tries advance (step item) after (related item) excused) :
    Tries advance (items.mapM step) state
      (fun results after => List.Forall₂ (fun item result => related item result after) items results)
      excused := by
  induction items generalizing state with
  | nil => exact Tries.pure List.Forall₂.nil
  | cons item items inductionHypothesis =>
    rw [List.mapM_cons]
    refine (each item List.mem_cons_self state (refl state)).bind ?_
    intro result middle reached found
    refine (inductionHypothesis fun other member after later =>
      each other (List.mem_cons_of_mem item member) after (IsTrans.trans _ _ _ reached later)).bind ?_
    intro results after later others
    exact Tries.pure (List.Forall₂.cons (stable _ _ _ _ later found) others)

/-- A successful step for every item of a list gives one result for every item. -/
theorem Yields.mapM {step : α → Stateful ε σ β} {items : List α} {state : σ}
    (related : α → β → σ → Prop)
    (stable : ∀ item result before after, advance before after →
      related item result before → related item result after)
    (each : ∀ item ∈ items, ∀ after, advance state after →
      Yields advance (step item) after (related item)) :
    Yields advance (items.mapM step) state
      (fun results after => List.Forall₂ (fun item result => related item result after) items
        results) :=
  (Tries.mapM related stable fun item member after reached =>
    (each item member after reached).tries).yields not_false

theorem Keeps.mapM {step : α → Stateful ε σ β} {items : List α} {state : σ}
    (each : ∀ item ∈ items, ∀ after, advance state after → Keeps advance (step item) after) :
    Keeps advance (items.mapM step) state := by
  induction items generalizing state with
  | nil => exact Keeps.pure
  | cons item items inductionHypothesis =>
    rw [List.mapM_cons]
    refine (each item List.mem_cons_self state (refl state)).bind ?_
    intro result middle reached
    refine (inductionHypothesis fun other member after later =>
      each other (List.mem_cons_of_mem item member) after (IsTrans.trans _ _ _ reached later)).bind ?_
    intro results after later
    exact Keeps.pure

theorem Keeps.forM {step : α → Stateful ε σ PUnit} {items : List α} {state : σ}
    (each : ∀ item ∈ items, ∀ after, advance state after → Keeps advance (step item) after) :
    Keeps advance (items.forM step) state := by
  induction items generalizing state with
  | nil => exact Keeps.pure
  | cons item items inductionHypothesis =>
    refine (each item List.mem_cons_self state (refl state)).bind ?_
    intro _ middle reached
    exact inductionHypothesis fun other member after later =>
      each other (List.mem_cons_of_mem item member) after (IsTrans.trans _ _ _ reached later)

end Sequences

end Preorder

end Stateful

end Clausal
