import Mathlib
import Clausal.Proofs.Spelling

/-!
# Bracketed text

The recursion that writes the text of an expression asks for an application only whether
it is shared and has a label. That decides as well as the list of what was seen: an
application that is not shared is met once, and a shared one has its label from the
moment when it is opened. So the text spells the expression (`pieces_spelled`), and every
application in it is written out once, labelled if it is shared, and referred to behind
the place where it is written out (`render_expands_once`).

What the pieces look like is said by `Piece.Written`, apart from the function that writes
them.
-/

namespace Clausal

variable {pool : Pool} {root e x : ExprId} {seen rest items operands : List ExprId} {ty : Ty} {op : Op}
  {text : String} {shared : ExprId → Bool} {writing before after : Writing}

section Words

/-- How an operator is written: by its name, with the attribute in square brackets. -/
inductive Op.Written : Op → String → Prop
  | not : Written .not "not"
  | and : Written .and "and"
  | or : Written .or "or"
  | clause : Written .clause "clause"
  | xor : Written .xor "xor"
  | implies : Written .implies "implies"
  | ite : Written .ite "ite"
  | eq : Written .eq "eq"
  | bit (index : Nat) : Written (.bit index) ("bit[" ++ index.repr ++ "]")
  | bits : Written .bits "bits"
  | add (width : Nat) : Written (.add width) ("add[" ++ width.repr ++ "]")
  | mul (width : Nat) : Written (.mul width) ("mul[" ++ width.repr ++ "]")
  | tuple : Written .tuple "tuple"
  | field (index : Nat) : Written (.field index) ("field[" ++ index.repr ++ "]")

theorem Op.written_render (op : Op) : op.Written op.render := by
  cases op <;> constructor

/-- How a piece is written. References and labels are numbers behind a sign. -/
inductive Piece.Written : Piece → String → Prop
  | leaf (text : String) : Written (.leaf text) text
  | gap : Written .gap " "
  /-- An application without a label. -/
  | opening (e : ExprId) {op : Op} {name : String} (isName : op.Written name) :
      Written (.opening e op false) ("(" ++ name)
  /-- An application with a label. -/
  | labelled (e : ExprId) {op : Op} {name : String} (isName : op.Written name) :
      Written (.opening e op true) ("@" ++ e.index.repr ++ "=(" ++ name)
  | closing (e : ExprId) : Written (.closing e) ")"
  | reference (e : ExprId) : Written (.reference e) ("@" ++ e.index.repr)

theorem Piece.written_render (piece : Piece) : piece.Written piece.render := by
  cases piece with
  | leaf text => exact .leaf text
  | gap => exact .gap
  | closing e => exact .closing e
  | reference e => exact .reference e
  | opening e op labelled =>
    cases labelled with
    | false => exact .opening e op.written_render
    | true => exact .labelled e op.written_render

end Words

namespace Writing

/-- A text with one more piece. -/
def push (writing : Writing) (piece : Piece) : Writing :=
  { writing with pieces := writing.pieces.push piece }

/-- A text in which an application is opened. -/
def enter (writing : Writing) (e : ExprId) (op : Op) (labelled : Bool) : Writing where
  pieces := writing.pieces.push (.opening e op labelled)
  labels := if labelled then writing.labels.insert e else writing.labels

@[simp] theorem toList_pieces_push (writing : Writing) (piece : Piece) :
    (writing.push piece).pieces.toList = writing.pieces.toList ++ [piece] :=
  Array.toList_push

@[simp] theorem toList_pieces_enter (writing : Writing) (e : ExprId) (op : Op) (labelled : Bool) :
    (writing.enter e op labelled).pieces.toList = writing.pieces.toList ++ [.opening e op labelled] :=
  Array.toList_push

end Writing

namespace Pool

section Equations

/-- Append the pieces of expressions to a text, with a gap in front of each. -/
def writeAll (pool : Pool) (shared : ExprId → Bool) (items : List ExprId) (writing : Writing) : Writing :=
  items.foldl (fun writing item => pool.write shared item (writing.push .gap)) writing

theorem write_of_leafText? (isLeaf : pool.leafText? e = some text) :
    pool.write shared e writing = writing.push (.leaf text) := by
  unfold leafText? at isLeaf
  rw [write]
  split at isLeaf <;> split <;> simp_all [Writing.push]

theorem write_of_labelled (stored : pool.node? e = some ⟨ty, .apply op operands⟩)
    (labelled : shared e && writing.labels.contains e) :
    pool.write shared e writing = writing.push (.reference e) := by
  rw [write]
  split <;> simp_all [Writing.push]

theorem write_of_not_labelled (stored : pool.node? e = some ⟨ty, .apply op operands⟩)
    (unlabelled : ¬(shared e && writing.labels.contains e)) :
    pool.write shared e writing =
      (pool.writeAll shared operands (writing.enter e op (shared e))).push (.closing e) := by
  rw [write, writeAll]
  split
  case h_4 found =>
    rw [stored] at found
    cases found
    rw [if_neg unlabelled, ← List.foldl_attach]
    rfl
  all_goals simp_all

end Equations

section Labels

/-- The labels that were given are those of the shared applications that were seen. -/
def Labels (pool : Pool) (root : ExprId) (seen : List ExprId) (labels : Std.HashSet ExprId) : Prop :=
  ∀ x, labels.contains x ↔ x ∈ pool.applications seen ∧ pool.isShared root x

theorem Labels.contains_iff (labels : pool.Labels root seen writing.labels)
    (applied : pool.isApplication e) :
    writing.labels.contains e ↔ e ∈ seen ∧ pool.isShared root e := by
  rw [labels e, applications, List.mem_filter, and_iff_left applied]

theorem Labels.enter (labels : pool.Labels root seen writing.labels) (applied : pool.isApplication e) :
    pool.Labels root (seen ++ [e]) (writing.enter e op (pool.isShared root e)).labels := by
  intro x
  have old := labels x
  rw [mem_applications_concat_iff applied, Writing.enter]
  by_cases shared : pool.isShared root e
  · rw [if_pos shared, Std.HashSet.contains_insert, Bool.or_eq_true, beq_iff_eq]
    grind
  · rw [if_neg shared]
    grind

end Labels

section Writing

/-- A text is continued by the pieces of some expressions. The first of them, `lead`, are
in the text already. -/
structure Writes (pool : Pool) (root : ExprId) (seen items : List ExprId) (lead : List Piece)
    (before after : Writing) : Prop where
  labels : pool.Labels root (items.foldl pool.explore seen) after.labels
  spelled : ∃ pieces, after.pieces.toList = before.pieces.toList ++ pieces ∧
    pool.Spells root seen items (lead ++ pieces)

theorem Writes.cons (first : pool.Writes root seen [e] [.gap] (before.push .gap) writing)
    (others : pool.Writes root (pool.explore seen e) items [] writing after) :
    pool.Writes root seen (e :: items) [] before after := by
  obtain ⟨pieces, isText, spelled⟩ := first.spelled
  obtain ⟨more, isLonger, further⟩ := others.spelled
  refine ⟨others.labels, .gap :: (pieces ++ more), ?_, spelled.cons further⟩
  simp [isLonger, isText]

theorem write_leaf (isLeaf : pool.leafText? e = some text)
    (labels : pool.Labels root seen writing.labels) :
    pool.Writes root seen [e] [.gap] writing (pool.write (pool.isShared root) e writing) := by
  rw [write_of_leafText? isLeaf]
  refine ⟨fun x => ?_, [.leaf text], by simp, .leaf isLeaf .nil⟩
  rw [List.foldl_cons, List.foldl_nil, applications_explore_of_leafText? isLeaf]
  exact labels x

theorem write_reference (stored : pool.node? e = some ⟨ty, .apply op operands⟩)
    (shared : pool.isShared root e) (known : e ∈ seen)
    (labels : pool.Labels root seen writing.labels) :
    pool.Writes root seen [e] [.gap] writing (pool.write (pool.isShared root) e writing) := by
  have applied := isApplication_of_node? stored
  have labelled : writing.labels.contains e := (labels.contains_iff applied).mpr ⟨known, shared⟩
  rw [write_of_labelled stored (Bool.and_eq_true_iff.mpr ⟨shared, labelled⟩)]
  refine ⟨fun x => ?_, [.reference e], by simp, .reference applied shared known .nil⟩
  rw [List.foldl_cons, List.foldl_nil, explore_of_mem known]
  exact labels x

theorem write_expansion (stored : pool.node? e = some ⟨ty, .apply op operands⟩) (new : e ∉ seen)
    (labels : pool.Labels root seen writing.labels)
    (filled : pool.Writes root (seen ++ [e]) operands [] (writing.enter e op (pool.isShared root e))
      (pool.writeAll (pool.isShared root) operands (writing.enter e op (pool.isShared root e)))) :
    pool.Writes root seen [e] [.gap] writing (pool.write (pool.isShared root) e writing) := by
  have unlabelled : ¬(pool.isShared root e && writing.labels.contains e) := by
    rw [Bool.and_eq_true, not_and]
    exact fun _ labelled => new ((labels.contains_iff (isApplication_of_node? stored)).mp labelled).1
  obtain ⟨inside, isText, spelled⟩ := filled.spelled
  have alone : pool.Spells root seen [e] _ := .expansion stored new spelled .nil
  rw [write_of_not_labelled stored unlabelled]
  refine ⟨?_, _, ?_, alone⟩
  · rw [List.foldl_cons, List.foldl_nil, explore_of_node? stored new]
    exact filled.labels
  · simp [isText]

theorem writeAll_writes
    (each : ∀ item ∈ items, ∀ seen rest writing, pool.Underway root seen (item :: rest) →
      pool.Labels root seen writing.labels →
      pool.Writes root seen [item] [.gap] writing (pool.write (pool.isShared root) item writing))
    (underway : pool.Underway root seen (items ++ rest)) (labels : pool.Labels root seen writing.labels) :
    pool.Writes root seen items [] writing (pool.writeAll (pool.isShared root) items writing) := by
  induction items generalizing seen writing with
  | nil => exact ⟨labels, [], by simp [writeAll], .nil⟩
  | cons item items inductionHypothesis =>
    rw [List.forall_mem_cons] at each
    have first := each.1 seen (items ++ rest) (writing.push .gap) underway labels
    exact first.cons (inductionHypothesis each.2 underway.explore first.labels)

/-- The text keeps step with the traversal. -/
theorem write_writes (stored : pool.Has e) (underway : pool.Underway root seen (e :: rest))
    (labels : pool.Labels root seen writing.labels) :
    pool.Writes root seen [e] [.gap] writing (pool.write (pool.isShared root) e writing) := by
  induction index : e.index using Nat.strong_induction_on generalizing e seen rest writing with
  | _ size inductionHypothesis =>
  subst index
  rcases leaf_or_application stored with ⟨text, isLeaf⟩ | ⟨ty, op, operands, found⟩
  · exact write_leaf isLeaf labels
  by_cases known : e ∈ seen
  · exact write_reference found (isShared_iff.mpr (underway.shared known)) known labels
  · have entered := underway.enter known
    rw [operands_of_node? found] at entered
    refine write_expansion found known labels
      (writeAll_writes ?_ entered (labels.enter (isApplication_of_node? found)))
    intro operand isOperand _ _ _ next nextLabels
    exact inductionHypothesis _ (index_lt_of_node? found isOperand)
      (has_of_mem_operands found isOperand) next nextLabels rfl

/-- The text of an expression, with a gap in front, is what a traversal from it spells. -/
theorem pieces_spelled (stored : pool.Has e) : pool.Spells e [] [e] (.gap :: pool.pieces e) := by
  have start : pool.Labels e [] (⟨#[], ∅⟩ : Writing).labels := by
    intro x
    simp [applications]
  obtain ⟨pieces, isText, spelled⟩ := (write_writes stored (underway_start pool e) start).spelled
  have same : pool.pieces e = pieces := isText
  exact same ▸ spelled

end Writing

section Text

/-- What is opened in the text is what the traversal lists, less the leaves. -/
theorem filterMap_opened?_pieces (stored : pool.Has e) :
    (pool.pieces e).filterMap Piece.opened? = pool.applications (pool.descendants [e]) := by
  rw [descendants_eq_foldl_explore, (pieces_spelled stored).applications_eq]
  rfl

theorem mem_applications_descendants_iff :
    x ∈ pool.applications (pool.descendants [e]) ↔ pool.Reaches e x ∧ pool.isApplication x := by
  rw [applications, List.mem_filter, mem_descendants_iff]
  simp

/-- Exactly the applications that occur in an expression are written out. -/
theorem expanded_pieces_iff (stored : pool.Has e) :
    pool.Expanded e x (pool.pieces e) ↔ pool.Reaches e x ∧ pool.isApplication x := by
  rw [← mem_applications_descendants_iff]
  constructor
  · rintro ⟨seen, op, inside, front, back, -, -, isText⟩
    rw [← filterMap_opened?_pieces stored]
    exact List.mem_filterMap.mpr ⟨.opening x op (pool.isShared e x), by simp [isText], rfl⟩
  · intro member
    rw [descendants_eq_foldl_explore] at member
    rcases (pieces_spelled stored).expanded member with old | expanded
    · cases old
    · exact expanded.of_gap

theorem pieces_resolved {position : Nat} (stored : pool.Has e)
    (found : (pool.pieces e)[position]? = some (.reference x)) :
    pool.Shared e x ∧ pool.Expanded e x ((pool.pieces e).take position) := by
  have below : ∀ item ∈ [e], item.index < e.index + 1 := by simp
  have none : ∀ x ∈ pool.applications [], x.index < e.index + 1 → pool.Expanded e x [] := by
    simp [applications]
  obtain ⟨shared, expanded⟩ :=
    (pieces_spelled stored).resolved below none (position + 1) x (by simpa using found)
  exact ⟨isShared_iff.mp shared, expanded.of_gap⟩

theorem length_pieces (stored : pool.Has e) :
    (pool.pieces e).length = 1 + total pool.span (pool.descendants [e]) := by
  have length := (pieces_spelled stored).length_eq
  rw [← descendants_eq_foldl_explore] at length
  simp only [List.length_cons, List.length_nil, total_nil] at length
  omega

/-- A text of short pieces is short. -/
theorem length_render_le {width : Nat} (stored : pool.Has e)
    (short : ∀ piece ∈ pool.pieces e, piece.render.length ≤ width) :
    (pool.render e).length ≤ width * (1 + total pool.span (pool.descendants [e])) := by
  have each := List.sum_le_card_nsmul ((pool.pieces e).map fun piece => piece.render.length) width
    (by simpa using short)
  rw [List.length_map, length_pieces stored, smul_eq_mul, Nat.mul_comm] at each
  rw [render, String.length_join, List.map_map]
  exact each

/-- The text of an expression consists of its pieces, as these are written. It writes out
the applications in the expression, each of them once, labels those that are operands more
than once, and refers to an application only behind the place where it is written out. Its
length is linear in the number of nodes and operands. -/
theorem render_expands_once (stored : pool.Has e) :
    (∃ words, List.Forall₂ Piece.Written (pool.pieces e) words ∧ pool.render e = String.join words) ∧
    (∀ x, pool.Expanded e x (pool.pieces e) ↔ pool.Reaches e x ∧ pool.isApplication x) ∧
    ((pool.pieces e).filterMap Piece.opened?).Nodup ∧
    (∀ x op (labelled : Bool), .opening x op labelled ∈ pool.pieces e →
      pool.op? x = some op ∧ (labelled ↔ pool.Shared e x)) ∧
    (∀ position x, (pool.pieces e)[position]? = some (.reference x) →
      pool.Shared e x ∧ pool.Expanded e x ((pool.pieces e).take position)) ∧
    (pool.pieces e).length = 1 + total pool.span (pool.descendants [e]) ∧
    ∀ width, (∀ piece ∈ pool.pieces e, piece.render.length ≤ width) →
      (pool.render e).length ≤ width * (1 + total pool.span (pool.descendants [e])) := by
  refine ⟨⟨_, ?words, rfl⟩, fun x => expanded_pieces_iff stored, ?once,
    fun x op labelled opened => ?labels, fun _ _ => pieces_resolved stored, length_pieces stored,
    fun _ => length_render_le stored⟩
  case words =>
    rw [List.forall₂_map_right_iff, List.forall₂_same]
    exact fun piece _ => piece.written_render
  case once =>
    rw [filterMap_opened?_pieces stored]
    exact (descendants_traversed pool [e]).nodup.filter _
  case labels =>
    obtain ⟨applied, rfl⟩ := (pieces_spelled stored).of_mem_opening (List.mem_cons_of_mem _ opened)
    exact ⟨applied, isShared_iff⟩

end Text

section Doubling

variable {twice fourfold : ExprId}

theorem exists_interned (pool : Pool) (node : Node) (known : ∀ operand ∈ node.operands, pool.Has operand) :
    ∃ after e, pool.Extends after ∧ after.node? e = some node :=
  ⟨_, _, extends_intern known, node?_intern known⟩

/-- Some pool has a variable that is doubled twice. -/
theorem exists_doubled : ∃ (pool : Pool) (x twice fourfold : ExprId),
    pool.node? x = some ⟨.bool, .var "x"⟩ ∧
    pool.node? twice = some ⟨.bool, .apply .xor [x, x]⟩ ∧
    pool.node? fourfold = some ⟨.bool, .apply .xor [twice, twice]⟩ := by
  obtain ⟨first, x, -, isLeaf⟩ := exists_interned (.empty 0) ⟨.bool, .var "x"⟩ (by simp)
  have leafStored : first.Has x := has_iff.mpr ⟨_, isLeaf⟩
  obtain ⟨second, twice, toSecond, isTwice⟩ := exists_interned first ⟨.bool, .apply .xor [x, x]⟩
    (by simpa using leafStored)
  have twiceStored : second.Has twice := has_iff.mpr ⟨_, isTwice⟩
  obtain ⟨third, fourfold, toThird, isFourfold⟩ :=
    exists_interned second ⟨.bool, .apply .xor [twice, twice]⟩ (by simpa using twiceStored)
  exact ⟨third, x, twice, fourfold, toThird (toSecond isLeaf), toThird isTwice, isFourfold⟩

theorem pieces_doubled (isLeaf : pool.node? x = some ⟨.bool, .var "x"⟩)
    (isTwice : pool.node? twice = some ⟨.bool, .apply .xor [x, x]⟩)
    (isFourfold : pool.node? fourfold = some ⟨.bool, .apply .xor [twice, twice]⟩) :
    pool.pieces fourfold = [.opening fourfold .xor false, .gap, .opening twice .xor true, .gap, .leaf "x",
      .gap, .leaf "x", .closing twice, .gap, .reference twice, .closing fourfold] := by
  have isText : pool.leafText? x = some "x" := by simp only [leafText?, isLeaf]
  have single : pool.isShared fourfold fourfold = false :=
    Bool.eq_false_iff.mpr (mt isShared_iff.mp (not_shared_root pool fourfold))
  have shared : pool.isShared fourfold twice = true := by
    refine isShared_iff.mpr ⟨(fourfold, 0), ⟨.refl, ?_⟩, (fourfold, 1), ⟨.refl, ?_⟩, by simp⟩
    all_goals
      rw [operands_of_node? isFourfold]
      rfl
  have once : ∀ writing : Writing, twice ∉ writing.labels →
      pool.write (pool.isShared fourfold) twice writing =
        ((writing.enter twice .xor true).push .gap |>.push (.leaf "x") |>.push .gap
          |>.push (.leaf "x")).push (.closing twice) := by
    intro writing new
    rw [write_of_not_labelled isTwice (by simp [new]), shared]
    simp [writeAll, write_of_leafText? isText]
  have first := once ((Writing.enter ⟨#[], ∅⟩ fourfold .xor false).push .gap)
    (by simp [Writing.push, Writing.enter])
  have unfolded : pool.pieces fourfold =
    (pool.write (pool.isShared fourfold) fourfold ⟨#[], ∅⟩).pieces.toList := rfl
  rw [unfolded, write_of_not_labelled isFourfold (by simp [single]), single, writeAll,
    List.foldl_cons, List.foldl_cons, List.foldl_nil, first,
    write_of_labelled isTwice (by simp [shared, Writing.push, Writing.enter])]
  simp

/-- Doubling a variable twice gives a text in which the inner sum is written out once and
referred to once. -/
theorem render_expands_once_doubled : ∃ (pool : Pool) (twice fourfold : ExprId),
    pool.Has fourfold ∧
    pool.render fourfold =
      "(xor @" ++ twice.index.repr ++ "=(xor x x) @" ++ twice.index.repr ++ ")" ∧
    (pool.pieces fourfold)[9]? = some (.reference twice) ∧ pool.Shared fourfold twice ∧
    pool.Expanded fourfold twice ((pool.pieces fourfold).take 9) := by
  obtain ⟨pool, x, twice, fourfold, isLeaf, isTwice, isFourfold⟩ := exists_doubled
  have pieces := pieces_doubled isLeaf isTwice isFourfold
  have stored : pool.Has fourfold := has_iff.mpr ⟨_, isFourfold⟩
  have found : (pool.pieces fourfold)[9]? = some (.reference twice) := by rw [pieces]; rfl
  obtain ⟨-, -, -, -, resolved, -⟩ := render_expands_once stored
  refine ⟨pool, twice, fourfold, stored, ?_, found, resolved 9 twice found⟩
  rw [render, pieces]
  apply String.toList_injective
  simp [String.join, Piece.render, ExprId.render, Op.render, Op.parameter?, Op.name]

end Doubling

end Pool

end Clausal
