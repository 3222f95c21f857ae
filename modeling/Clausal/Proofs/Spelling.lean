import Mathlib
import Clausal.Proofs.Sharing

/-!
# How a text spells expressions

`Pool.Spells` relates expressions to pieces of text. It keeps step with the recursive
traversal: an application that the traversal has seen is referred to, any other one is
opened, filled with its operands and closed. So the applications that a text opens are
those that the traversal comes to see, in the same order and each of them once
(`Spells.applications_eq`), and the length of the text follows from what was seen
(`Spells.length_eq`).

An application that is referred to was seen. It is not being written out at that point,
since operands have smaller numbers than what they occur in, so it is written out before
(`Spells.resolved`).
-/

namespace Clausal

/-- The application that a piece opens. -/
def Piece.opened? : Piece → Option ExprId
  | .opening e _ _ => some e
  | _ => none

namespace Pool

variable {pool : Pool} {root e x : ExprId} {seen rest items operands : List ExprId} {ty : Ty} {op : Op}
  {text : String} {before pieces more : List Piece}

section Applications

/-- Whether an expression is an application. -/
def isApplication (pool : Pool) (e : ExprId) : Bool :=
  (pool.op? e).isSome

/-- The text of a variable or a constant. -/
def leafText? (pool : Pool) (e : ExprId) : Option String :=
  match pool.node? e with
  | some ⟨_, .var name⟩ => some name
  | some ⟨ty, .const value⟩ => some (ty.renderValue value)
  | _ => none

/-- A stored expression is a leaf or an application. -/
theorem leaf_or_application (stored : pool.Has e) :
    (∃ text, pool.leafText? e = some text) ∨
      ∃ ty op operands, pool.node? e = some ⟨ty, .apply op operands⟩ := by
  obtain ⟨⟨ty, form⟩, found⟩ := has_iff.mp stored
  cases form with
  | var name => exact .inl ⟨name, by simp only [leafText?, found]⟩
  | const value => exact .inl ⟨ty.renderValue value, by simp only [leafText?, found]⟩
  | apply op operands => exact .inr ⟨ty, op, operands, found⟩

theorem isApplication_of_node? (stored : pool.node? e = some ⟨ty, .apply op operands⟩) :
    pool.isApplication e := by
  rw [isApplication, op?_of_apply stored]
  rfl

theorem isApplication_of_leafText? (isLeaf : pool.leafText? e = some text) :
    pool.isApplication e = false := by
  unfold leafText? at isLeaf
  unfold isApplication op?
  split at isLeaf <;> simp_all [Node.op?]

theorem operands_of_leafText? (isLeaf : pool.leafText? e = some text) : pool.operands e = [] := by
  have notApplied := isApplication_of_leafText? isLeaf
  rw [isApplication, Option.isSome_eq_false_iff, Option.isNone_iff_eq_none] at notApplied
  exact operands_of_op?_eq_none notApplied

theorem explore_of_node? (stored : pool.node? e = some ⟨ty, .apply op operands⟩) (new : e ∉ seen) :
    pool.explore seen e = operands.foldl pool.explore (seen ++ [e]) := by
  rw [explore_of_notMem new, operands_of_node? stored, Node.operands_apply]

/-- The visit of a leaf leads to nothing else. -/
theorem explore_of_leafText? (isLeaf : pool.leafText? e = some text) :
    pool.explore seen e = seen ∨ pool.explore seen e = seen ++ [e] := by
  by_cases known : e ∈ seen
  · exact .inl (explore_of_mem known)
  · rw [explore_of_notMem known, operands_of_leafText? isLeaf]
    exact .inr rfl

/-- The applications among some expressions. -/
def applications (pool : Pool) (seen : List ExprId) : List ExprId :=
  seen.filter pool.isApplication

theorem applications_concat (applied : pool.isApplication e) :
    pool.applications (seen ++ [e]) = pool.applications seen ++ [e] := by
  rw [applications, List.filter_append, List.filter_singleton, applied, applications]
  rfl

theorem mem_applications_concat_iff (applied : pool.isApplication e) :
    x ∈ pool.applications (seen ++ [e]) ↔ x ∈ pool.applications seen ∨ x = e := by
  rw [applications_concat applied, List.mem_append, List.mem_singleton]

theorem applications_explore_of_leafText? (isLeaf : pool.leafText? e = some text) :
    pool.applications (pool.explore seen e) = pool.applications seen := by
  rcases explore_of_leafText? isLeaf with same | added
  · rw [same]
  · simp [added, applications, isApplication_of_leafText? isLeaf]

/-- How much longer a text is where an application is written out than where it is only
referred to: by its end, and by a gap and a piece for each operand. -/
def span (pool : Pool) (e : ExprId) : Nat :=
  (pool.isApplication e).toNat + 2 * pool.operandCount e

theorem span_of_node? (stored : pool.node? e = some ⟨ty, .apply op operands⟩) :
    pool.span e = 1 + 2 * operands.length := by
  rw [span, isApplication_of_node? stored, operandCount, operands_of_node? stored]
  rfl

theorem total_span_explore_of_leafText? (isLeaf : pool.leafText? e = some text) :
    total pool.span (pool.explore seen e) = total pool.span seen := by
  have none : pool.span e = 0 := by
    rw [span, isApplication_of_leafText? isLeaf, operandCount, operands_of_leafText? isLeaf]
    rfl
  rcases explore_of_leafText? isLeaf with same | added
  · rw [same]
  · simp [added, total_append, none]

end Applications

section Spelling

/-- The pieces of some expressions, each behind a gap, as a traversal from `root` comes to
them that has seen other expressions before. -/
inductive Spells (pool : Pool) (root : ExprId) : List ExprId → List ExprId → List Piece → Prop
  /-- Nothing is to be written. -/
  | nil {seen : List ExprId} : Spells pool root seen [] []
  /-- A leaf is written out wherever it occurs. -/
  | leaf {seen rest : List ExprId} {e : ExprId} {text : String} {pieces : List Piece}
      (isLeaf : pool.leafText? e = some text)
      (others : Spells pool root (pool.explore seen e) rest pieces) :
      Spells pool root seen (e :: rest) (.gap :: .leaf text :: pieces)
  /-- A shared application that was seen is referred to. -/
  | reference {seen rest : List ExprId} {e : ExprId} {pieces : List Piece}
      (applied : pool.isApplication e) (shared : pool.isShared root e) (known : e ∈ seen)
      (others : Spells pool root seen rest pieces) :
      Spells pool root seen (e :: rest) (.gap :: .reference e :: pieces)
  /-- An application that was not seen is written out, with a label if it is shared. -/
  | expansion {seen rest operands : List ExprId} {e : ExprId} {ty : Ty} {op : Op}
      {inside pieces : List Piece}
      (stored : pool.node? e = some ⟨ty, .apply op operands⟩) (new : e ∉ seen)
      (filled : Spells pool root (seen ++ [e]) operands inside)
      (others : Spells pool root (pool.explore seen e) rest pieces) :
      Spells pool root seen (e :: rest)
        (.gap :: .opening e op (pool.isShared root e) :: (inside ++ .closing e :: pieces))

/-- One expression is spelled behind the other. -/
theorem Spells.cons (first : pool.Spells root seen [e] pieces)
    (others : pool.Spells root (pool.explore seen e) items more) :
    pool.Spells root seen (e :: items) (pieces ++ more) := by
  cases first with
  | leaf isLeaf rest =>
    cases rest
    exact .leaf isLeaf others
  | reference applied shared known rest =>
    cases rest
    rw [explore_of_mem known] at others
    exact .reference applied shared known others
  | expansion stored new filled rest =>
    cases rest
    simpa using Spells.expansion stored new filled others

/-- What is opened is what the traversal comes to see. -/
theorem Spells.applications_eq (spelled : pool.Spells root seen items pieces) :
    pool.applications (items.foldl pool.explore seen) =
      pool.applications seen ++ pieces.filterMap Piece.opened? := by
  induction spelled with
  | nil => simp
  | leaf isLeaf others inductionHypothesis =>
    rw [List.foldl_cons, inductionHypothesis, applications_explore_of_leafText? isLeaf]
    rfl
  | reference applied shared known others inductionHypothesis =>
    rw [List.foldl_cons, explore_of_mem known, inductionHypothesis]
    rfl
  | expansion stored new filled others inner behind =>
    rw [List.foldl_cons, behind, explore_of_node? stored new, inner,
      applications_concat (isApplication_of_node? stored)]
    simp [List.filterMap_cons, Piece.opened?]

/-- Applications are opened with their operators, and with a label if they are shared. -/
theorem Spells.of_mem_opening {labelled : Bool} (spelled : pool.Spells root seen items pieces)
    (opened : .opening x op labelled ∈ pieces) :
    pool.op? x = some op ∧ labelled = pool.isShared root x := by
  induction spelled with
  | nil => cases opened
  | leaf isLeaf others inductionHypothesis =>
    exact inductionHypothesis (by simpa using opened)
  | reference applied shared known others inductionHypothesis =>
    exact inductionHypothesis (by simpa using opened)
  | expansion stored new filled others inner behind =>
    simp only [List.mem_cons, List.mem_append, reduceCtorEq, false_or, Piece.opening.injEq] at opened
    rcases opened with ⟨rfl, rfl, rfl⟩ | within | later
    · exact ⟨op?_of_apply stored, rfl⟩
    · exact inner within
    · exact behind later

/-- A text has two pieces for each expression in it, and more for what it writes out. -/
theorem Spells.length_eq (spelled : pool.Spells root seen items pieces) :
    pieces.length + total pool.span seen =
      2 * items.length + total pool.span (items.foldl pool.explore seen) := by
  induction spelled with
  | nil => simp
  | leaf isLeaf others inductionHypothesis =>
    rw [total_span_explore_of_leafText? isLeaf] at inductionHypothesis
    simp only [List.length_cons, List.foldl_cons]
    omega
  | reference applied shared known others inductionHypothesis =>
    simp only [List.length_cons, List.foldl_cons, explore_of_mem known]
    omega
  | expansion stored new filled others inner behind =>
    rw [explore_of_node? stored new] at behind
    rw [total_append, total_cons, total_nil, span_of_node? stored] at inner
    simp only [List.length_cons, List.length_append, List.foldl_cons, explore_of_node? stored new]
    omega

end Spelling

section Expansions

/-- An application is written out in the text of `root`: it is opened, its operands
follow, and it is closed. -/
def Expanded (pool : Pool) (root x : ExprId) (text : List Piece) : Prop :=
  ∃ seen op inside front back, pool.op? x = some op ∧
    pool.Spells root (seen ++ [x]) (pool.operands x) inside ∧
      text = front ++ .opening x op (pool.isShared root x) :: (inside ++ .closing x :: back)

theorem Expanded.append_left (expanded : pool.Expanded root x pieces) (front : List Piece) :
    pool.Expanded root x (front ++ pieces) := by
  obtain ⟨seen, op, inside, start, back, applied, spelled, rfl⟩ := expanded
  exact ⟨seen, op, inside, front ++ start, back, applied, spelled, by simp⟩

theorem Expanded.append_right (expanded : pool.Expanded root x pieces) (back : List Piece) :
    pool.Expanded root x (pieces ++ back) := by
  obtain ⟨seen, op, inside, front, rest, applied, spelled, rfl⟩ := expanded
  exact ⟨seen, op, inside, front, rest ++ back, applied, spelled, by simp⟩

theorem Expanded.of_gap (expanded : pool.Expanded root x (.gap :: pieces)) :
    pool.Expanded root x pieces := by
  obtain ⟨seen, op, inside, front, back, applied, spelled, isText⟩ := expanded
  cases front with
  | nil => simp at isText
  | cons first front => exact ⟨seen, op, inside, front, back, applied, spelled, (List.cons.inj isText).2⟩

/-- An application that the traversal comes to see is written out. -/
theorem Spells.expanded (spelled : pool.Spells root seen items pieces)
    (reached : x ∈ pool.applications (items.foldl pool.explore seen)) :
    x ∈ pool.applications seen ∨ pool.Expanded root x pieces := by
  induction spelled with
  | nil => exact .inl reached
  | leaf isLeaf others inductionHypothesis =>
    rw [applications_explore_of_leafText? isLeaf] at inductionHypothesis
    exact (inductionHypothesis reached).imp id fun expanded => expanded.append_left [_, _]
  | reference applied shared known others inductionHypothesis =>
    rw [List.foldl_cons, explore_of_mem known] at reached
    exact (inductionHypothesis reached).imp id fun expanded => expanded.append_left [_, _]
  | @expansion seen rest operands e ty op inside pieces stored new filled others inner behind =>
    rw [explore_of_node? stored new] at behind
    rw [mem_applications_concat_iff (isApplication_of_node? stored)] at inner
    rw [List.foldl_cons, explore_of_node? stored new] at reached
    rcases behind reached with within | expanded
    · rcases inner within with (old | rfl) | expanded
      · exact .inl old
      · rw [← Node.operands_apply ty op operands, ← operands_of_node? stored] at filled
        exact .inr ⟨seen, op, inside, [.gap], pieces, op?_of_apply stored, filled, rfl⟩
      · exact .inr ((expanded.append_right (.closing e :: pieces)).append_left [_, _])
    · have later := expanded.append_left
        (.gap :: .opening e op (pool.isShared root e) :: (inside ++ [.closing e]))
      exact .inr (by simpa using later)

/-- Every reference in a text is to a shared application that is written out in front of
the reference, in that text or in the text before it. -/
def Resolved (pool : Pool) (root : ExprId) (before text : List Piece) : Prop :=
  ∀ (position : Nat) (x : ExprId), text[position]? = some (.reference x) →
    pool.isShared root x ∧ pool.Expanded root x (before ++ text.take position)

theorem resolved_of_plain (plain : ∀ x, .reference x ∉ pieces) : pool.Resolved root before pieces :=
  fun _ x found => (plain x (List.mem_of_getElem? found)).elim

theorem resolved_reference (shared : pool.isShared root x) (expanded : pool.Expanded root x before) :
    pool.Resolved root before [.gap, .reference x] := by
  intro position other found
  obtain ⟨rfl, rfl⟩ : position = 1 ∧ x = other := by
    rcases position with _ | _ | position <;> simp_all
  exact ⟨shared, expanded.append_right _⟩

theorem Resolved.append (first : pool.Resolved root before pieces)
    (second : pool.Resolved root (before ++ pieces) more) :
    pool.Resolved root before (pieces ++ more) := by
  intro position x found
  rcases lt_or_ge position pieces.length with inside | behind
  · rw [List.getElem?_append_left inside] at found
    rw [List.take_append_of_le_length inside.le]
    exact first position x found
  · rw [List.getElem?_append_right behind] at found
    rw [List.take_append, List.take_of_length_le behind, ← List.append_assoc]
    exact second _ x found

/-- What is resolved is so when it is put in brackets. -/
theorem Resolved.bracket {labelled : Bool}
    (within : pool.Resolved root (before ++ [.gap, .opening e op labelled]) pieces) :
    pool.Resolved root before (.gap :: .opening e op labelled :: (pieces ++ [.closing e])) := by
  have opened : pool.Resolved root before [.gap, .opening e op labelled] := resolved_of_plain (by simp)
  have closed : pool.Resolved root (before ++ [.gap, .opening e op labelled] ++ pieces) [.closing e] :=
    resolved_of_plain (by simp)
  exact opened.append (within.append closed)

/-- References are resolved if what was seen is written out before. Only numbers below
those of the applications that are being written out matter. -/
theorem Spells.resolved {bound : Nat} (spelled : pool.Spells root seen items pieces)
    (below : ∀ item ∈ items, item.index < bound)
    (written : ∀ x ∈ pool.applications seen, x.index < bound → pool.Expanded root x before) :
    pool.Resolved root before pieces := by
  induction spelled generalizing bound before with
  | nil => exact resolved_of_plain (by simp)
  | @leaf seen rest e text pieces isLeaf others inductionHypothesis =>
    rw [List.forall_mem_cons] at below
    rw [applications_explore_of_leafText? isLeaf] at inductionHypothesis
    have plain : pool.Resolved root before [.gap, .leaf text] := resolved_of_plain (by simp)
    refine plain.append (inductionHypothesis below.2 fun x old small => ?_)
    exact (written x old small).append_right _
  | reference applied shared known others inductionHypothesis =>
    rw [List.forall_mem_cons] at below
    have expanded := written _ (List.mem_filter.mpr ⟨known, applied⟩) below.1
    refine (resolved_reference shared expanded).append (inductionHypothesis below.2 fun x old small => ?_)
    exact (written x old small).append_right _
  | @expansion seen rest operands e ty op inside pieces stored new filled others inner behind =>
    rw [List.forall_mem_cons] at below
    -- Inside, only what has a smaller number than the application can be met.
    have within : pool.Resolved root (before ++ [.gap, .opening e op (pool.isShared root e)]) inside := by
      refine inner (fun operand isOperand => index_lt_of_node? stored isOperand) fun x member small => ?_
      rcases (mem_applications_concat_iff (isApplication_of_node? stored)).mp member with old | rfl
      · exact (written x old (small.trans below.1)).append_right _
      · exact (lt_irrefl _ small).elim
    have alone : pool.Spells root seen [e] _ := .expansion stored new filled .nil
    have whole := within.bracket.append (behind below.2 fun x member small => ?_)
    · simpa using whole
    · rcases alone.expanded member with old | expanded
      · exact (written x old small).append_right _
      · exact expanded.append_left before

end Expansions

end Pool

end Clausal
