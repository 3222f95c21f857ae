import Mathlib
import Clausal.Proofs.Outcome
import Clausal.Proofs.Words

/-!
# What the reader accepts

`IsFormula` is the grammar of formula texts over the words of their lines: a
problem line, and behind it integers in any layout that are the clauses, each
ended by a zero. The reader accepts a text for a formula exactly if the grammar
gives the lines of the text that meaning (`parse_eq_ok_iff`).

The reader works through tokens one by one. What it has read behind the problem
line is a list of integers, of which its progress holds the groups that zeros
end and the rest (`Progress.Holds`). A step of the reader either reads one more
integer or finds a word that is none, and so does a run (`Progress.Reads`).
-/

namespace Clausal

/-- All literals stand for variables from one to the number of variables. -/
def Cnf.Bounded (cnf : Cnf) : Prop :=
  ∀ clause ∈ cnf.clauses, ∀ code ∈ clause, code ≠ 0 ∧ code.natAbs ≤ cnf.numVars

/-- The literals of the clauses in order, with a zero behind each clause. -/
def Cnf.codes (cnf : Cnf) : List Int :=
  cnf.clauses.flatMap (· ++ [0])

/-- What makes literals stand for variables can be seen from the clauses one by
one and from all literals together. -/
theorem Cnf.bounded_iff {cnf : Cnf} :
    cnf.Bounded ↔
      (∀ clause ∈ cnf.clauses, (0 : Int) ∉ clause) ∧
        ∀ code ∈ cnf.codes, code.natAbs ≤ cnf.numVars := by
  constructor
  · intro bounded
    refine ⟨fun clause member zero => (bounded clause member 0 zero).1 rfl, fun code member => ?_⟩
    obtain ⟨clause, inClauses, inClause⟩ := List.mem_flatMap.mp member
    rcases List.mem_append.mp inClause with literal | zero
    · exact (bounded clause inClauses code literal).2
    · simp [List.mem_singleton.mp zero]
  · rintro ⟨nonzero, small⟩ clause inClauses code inClause
    refine ⟨ne_of_mem_of_not_mem inClause (nonzero clause inClauses), small code ?_⟩
    exact List.mem_flatMap.mpr ⟨clause, inClauses, List.mem_append_left _ inClause⟩

namespace Dimacs

section Grammar

/-- The problem line that declares numbers of variables and clauses. -/
inductive IsProblemLine : List (List Char) → Nat → Nat → Prop
  | mk {vars clauses : List Char} {numVars numClauses : Nat} :
    IsCount vars numVars → IsCount clauses numClauses →
    IsProblemLine [['p'], ['c', 'n', 'f'], vars, clauses] numVars numClauses

/-- Lines that make up a formula: one problem line, which is the first and
declares the numbers of the formula, and behind it the integers of its
clauses. -/
inductive IsFormula : List (List (List Char)) → Cnf → Prop
  | mk {first : List (List Char)} {rest : List (List (List Char))} {cnf : Cnf} :
    IsProblemLine first cnf.numVars cnf.clauses.length →
    (∀ line ∈ rest, line.head? ≠ some ['p']) →
    List.Forall₂ IsInt rest.flatten cnf.codes →
    cnf.Bounded →
    IsFormula (first :: rest) cnf

/-- A word stands for one integer. -/
theorem rightUnique_isInt : Relator.RightUnique IsInt := fun _ _ _ left right =>
  Option.some.inj ((readInt_eq_some_iff.mpr left).symm.trans (readInt_eq_some_iff.mpr right))

theorem rightUnique_isCount : Relator.RightUnique IsCount := fun _ _ _ left right =>
  Option.some.inj ((readCount_eq_some_iff.mpr left).symm.trans (readCount_eq_some_iff.mpr right))

/-- Every one of the words that stand for integers stands for one. -/
theorem exists_isInt_of_mem {words : List (List Char)} {codes : List Int}
    (ints : List.Forall₂ IsInt words codes) {word : List Char} (member : word ∈ words) :
    ∃ code, IsInt word code := by
  obtain ⟨front, back, rfl⟩ := List.append_of_mem member
  obtain ⟨code, -, int, -⟩ := List.forall₂_cons_left_iff.mp
    (List.forall₂_drop_append codes front (word :: back) ints.flip).flip
  exact ⟨code, int⟩

/-- `p` is no integer. -/
theorem not_isInt_p (code : Int) : ¬ IsInt ['p'] code := by
  rw [← readInt_eq_some_iff]
  have unread : readInt ['p'] = none := by decide
  simp [unread]

/-- Behind the problem line, the lines of integers are no problem lines. -/
theorem head?_ne_p {lines : List (List (List Char))} {codes : List Int}
    (ints : List.Forall₂ IsInt lines.flatten codes) : ∀ line ∈ lines, line.head? ≠ some ['p'] := by
  intro line member opening
  obtain ⟨code, int⟩ := exists_isInt_of_mem ints
    (List.mem_flatten.mpr ⟨line, member, List.mem_of_mem_head? opening⟩)
  exact not_isInt_p code int

end Grammar

section Steps

/-- Behind a problem line, integers were read: the groups that zeros end, then
the rest. -/
structure Progress.Holds (progress : Progress) (header : Header) (codes : List Int) : Prop where
  header : progress.header = some header
  read : codes = progress.clauses.toList.flatMap (· ++ [0]) ++ progress.current.toList
  clauses : ∀ clause ∈ progress.clauses.toList, (0 : Int) ∉ clause
  current : (0 : Int) ∉ progress.current.toList
  maxVar : ∀ bound, progress.maxVar ≤ bound ↔ ∀ code ∈ codes, code.natAbs ≤ bound

/-- The outcome of reading words when integers were read already: these words
are read as integers behind them, or they are no integers. -/
def Progress.Reads (header : Header) (codes : List Int) (words : List (List Char)) :
    Except ParseError Progress → Prop
  | .ok next => ∃ read, List.Forall₂ IsInt words read ∧ next.Holds header (codes ++ read)
  | .error _ => ∀ read, ¬ List.Forall₂ IsInt words read

variable {header : Header} {progress : Progress} {codes : List Int}

/-- Nothing more is read. -/
theorem Progress.Holds.reads_nil (holds : progress.Holds header codes) :
    Progress.Reads header codes [] (.ok progress) :=
  ⟨[], .nil, by simpa using holds⟩

/-- Words are read one part after the other. -/
theorem Progress.Reads.bind {words more : List (List Char)} {outcome : Except ParseError Progress}
    {next : Progress → Except ParseError Progress}
    (reads : Progress.Reads header codes words outcome)
    (continues : ∀ progress codes, progress.Holds header codes →
      Progress.Reads header codes more (next progress)) :
    Progress.Reads header codes (words ++ more) (outcome >>= next) := by
  cases outcome with
  | error error =>
    intro all ints
    exact reads _ (List.forall₂_take_append all words more ints.flip).flip
  | ok progress =>
    obtain ⟨read, ints, holds⟩ := reads
    have continued := continues progress _ holds
    change Progress.Reads header codes (words ++ more) (next progress)
    cases outcome : next progress with
    | error error =>
      rw [outcome] at continued
      intro all ints
      exact continued _ (List.forall₂_drop_append all words more ints.flip).flip
    | ok last =>
      rw [outcome] at continued
      obtain ⟨rest, restInts, restHolds⟩ := continued
      exact ⟨read ++ rest, List.rel_append ints restInts, by rwa [← List.append_assoc]⟩

/-- A zero ends the clause that is not finished. -/
theorem Progress.Holds.finish (holds : progress.Holds header codes) (place : Place) :
    Progress.Holds { progress with
      clauses := progress.clauses.push progress.current.toList
      current := #[]
      last := place } header (codes ++ [0]) where
  header := holds.header
  read := by simp [holds.read]
  clauses := by
    simp only [Array.toList_push, List.forall_mem_append, List.forall_mem_singleton]
    exact ⟨holds.clauses, holds.current⟩
  current := by simp
  maxVar := fun bound => by
    rw [holds.maxVar bound, List.forall_mem_append, List.forall_mem_singleton]
    simp

/-- Any other integer is its next literal. -/
theorem Progress.Holds.extend (holds : progress.Holds header codes) {code : Int}
    (nonzero : code ≠ 0) (place : Place) :
    Progress.Holds { progress with
      current := progress.current.push code
      maxVar := max progress.maxVar code.natAbs
      last := place } header (codes ++ [code]) where
  header := holds.header
  read := by simp [holds.read]
  clauses := holds.clauses
  current := by
    rw [Array.toList_push, List.mem_append, List.mem_singleton]
    exact not_or.mpr ⟨holds.current, nonzero.symm⟩
  maxVar := fun bound => by
    rw [max_le_iff, holds.maxVar bound, List.forall_mem_append, List.forall_mem_singleton]

/-- The first integer that is read is an integer of the clause that is not
finished, or ends it. -/
theorem Progress.Holds.reads_literal (holds : progress.Holds header codes) (line : Nat)
    (token : Token) :
    Progress.Reads header codes [token.chars] (readLiteral line progress token) := by
  have behind : progress.header.isNone = false := by simp [holds.header]
  simp only [readLiteral, behind, Bool.false_eq_true, if_false]
  cases read : readInt token.chars with
  | none =>
    intro codes ints
    cases ints with
    | cons int _ => simp [readInt_eq_some_iff.mpr int] at read
  | some code =>
    have int : List.Forall₂ IsInt [token.chars] [code] := .cons (readInt_eq_some_iff.mp read) .nil
    by_cases zero : code = 0
    · subst zero
      exact ⟨[0], int, holds.finish _⟩
    · simp only [zero, if_false]
      exact ⟨[code], int, holds.extend zero _⟩

/-- All tokens of a line are read one after the other. -/
theorem Progress.Holds.reads_tokens (line : Nat) (tokens : List Token)
    (holds : progress.Holds header codes) :
    Progress.Reads header codes (tokens.map Token.chars)
      (tokens.foldlM (readLiteral line) progress) := by
  induction tokens generalizing progress codes with
  | nil => exact holds.reads_nil
  | cons token tokens ih =>
    rw [List.foldlM_cons, List.map_cons, ← List.singleton_append]
    exact (holds.reads_literal line token).bind fun _ _ next => ih next

/-- So are those of a line behind the problem line; a second problem line does
not start with an integer. -/
theorem Progress.Holds.reads_line (line : Line) (holds : progress.Holds header codes) :
    Progress.Reads header codes line.words (readLine progress line) := by
  rw [readLine]
  split
  · next column rest tokens =>
    simp only [holds.header, Option.isSome_some, if_true]
    intro read ints
    rw [Line.words, tokens, List.map_cons] at ints
    cases ints with
    | cons int _ => exact not_isInt_p _ int
  · exact holds.reads_tokens line.number line.tokens

/-- So are those of all lines behind the problem line. -/
theorem Progress.Holds.reads_lines (lines : List Line) (holds : progress.Holds header codes) :
    Progress.Reads header codes (lines.map Line.words).flatten (lines.foldlM readLine progress) := by
  induction lines generalizing progress codes with
  | nil => exact holds.reads_nil
  | cons line lines ih =>
    rw [List.foldlM_cons, List.map_cons, List.flatten_cons]
    exact (holds.reads_line line).bind fun _ _ next => ih next

end Steps

section Texts

theorem readCountAt_eq_ok_iff {line : Nat} {token : Token} {count : Nat} :
    readCountAt line token = .ok count ↔ IsCount token.chars count := by
  rw [← readCount_eq_some_iff, readCountAt]
  cases readCount token.chars <;> simp

/-- What is read as a problem line is one. -/
theorem isProblemLine_of_readHeader {number column : Nat} {first : Token} {tokens : List Token}
    {header : Header} (opening : first.chars = ['p'])
    (read : readHeader number column (first :: tokens) = .ok header) :
    IsProblemLine ((first :: tokens).map Token.chars) header.numVars header.numClauses := by
  match tokens, read with
  | [format, vars, clauses], read =>
    simp only [readHeader] at read
    split at read
    · cases read
    · next cnf =>
      obtain ⟨numVars, readVars, read⟩ := bind_eq_ok_iff.mp read
      obtain ⟨numClauses, readClauses, read⟩ := bind_eq_ok_iff.mp read
      cases read
      rw [List.map_cons, List.map_cons, List.map_cons, List.map_cons, opening, not_not.mp cnf]
      exact .mk (readCountAt_eq_ok_iff.mp readVars) (readCountAt_eq_ok_iff.mp readClauses)

/-- Nothing was read but the problem line. -/
theorem holds_start (header : Header) :
    Progress.Holds { Progress.start with header := some header } header [] where
  header := rfl
  read := by simp [Progress.start]
  clauses := by simp [Progress.start]
  current := by simp [Progress.start]
  maxVar := by simp [Progress.start]

/-- When nothing was read, a line that matters is read only if it is a problem
line. -/
theorem exists_holds_of_readLine_start {line : Line} {progress : Progress}
    (nonempty : line.words ≠ []) (read : readLine .start line = .ok progress) :
    ∃ header : Header,
      IsProblemLine line.words header.numVars header.numClauses ∧ progress.Holds header [] := by
  rw [readLine] at read
  split at read
  · next column rest tokens =>
    obtain ⟨header, readHeader, result⟩ := bind_eq_ok_iff.mp read
    cases result
    rw [tokens] at readHeader
    refine ⟨header, ?_, holds_start header⟩
    rw [Line.words, tokens]
    exact isProblemLine_of_readHeader rfl readHeader
  · obtain ⟨first, rest, tokens⟩ := List.exists_cons_of_ne_nil (mt List.map_eq_nil_iff.mpr nonempty)
    rw [tokens, List.foldlM_cons] at read
    cases read

/-- A problem line is read as the numbers that it declares. -/
theorem IsProblemLine.exists_readLine_start {line : Line} {numVars numClauses : Nat}
    (problem : IsProblemLine line.words numVars numClauses) :
    ∃ (progress : Progress) (header : Header), readLine .start line = .ok progress ∧
      progress.Holds header [] ∧ header.numVars = numVars ∧ header.numClauses = numClauses := by
  obtain ⟨number, tokens⟩ := line
  generalize shape : Line.words ⟨number, tokens⟩ = words at problem
  cases problem with
  | mk varsCount clausesCount =>
    simp only [Line.words, List.map_eq_cons_iff, List.map_eq_nil_iff] at shape
    obtain ⟨⟨firstAt, _⟩, _, rfl, rfl, ⟨formatAt, _⟩, _, rfl, rfl, vars, _, rfl, rfl, clauses, _,
      rfl, rfl, rfl⟩ := shape
    have readVars : readCountAt number vars = .ok numVars := readCountAt_eq_ok_iff.mpr varsCount
    have readClauses : readCountAt number clauses = .ok numClauses :=
      readCountAt_eq_ok_iff.mpr clausesCount
    let header : Header :=
      ⟨numVars, numClauses, ⟨number, vars.column⟩, ⟨number, clauses.column⟩⟩
    have read : readLine .start ⟨number, [⟨firstAt, ['p']⟩, ⟨formatAt, ['c', 'n', 'f']⟩, vars,
        clauses]⟩ = .ok { Progress.start with header := some header } := by
      simp [readLine, readHeader, readVars, readClauses, Progress.start, header, bind, Except.bind,
        pure, Except.pure]
    exact ⟨_, header, read, holds_start header, rfl, rfl⟩

/-- What was read is accepted if the last clause is finished and the declared
numbers are right. -/
theorem finish_eq_ok_iff {progress : Progress} {header : Header}
    (declared : progress.header = some header) {cnf : Cnf} :
    finish progress = .ok cnf ↔
      progress.current.toList = [] ∧ progress.maxVar ≤ header.numVars ∧
        progress.clauses.toList.length = header.numClauses ∧
        ⟨header.numVars, progress.clauses.toList⟩ = cnf := by
  have empty : progress.current.isEmpty = true ↔ progress.current.toList = [] := by simp
  rw [← empty, finish, declared, Array.length_toList]
  by_cases finished : progress.current.isEmpty = true
  · by_cases beyond : header.numVars < progress.maxVar
    · simp [finished, beyond]
    · by_cases counted : progress.clauses.size = header.numClauses <;>
        simp [finished, beyond, counted, Nat.le_of_not_lt beyond]
  · simp [finished]

/-- The check at the end accepts what was read exactly if it makes up the clauses
of the formula, and the numbers are those that were declared. -/
theorem Progress.Holds.finish_eq_ok_iff {header : Header} {progress : Progress} {codes : List Int}
    (holds : progress.Holds header codes) {cnf : Cnf} :
    Dimacs.finish progress = .ok cnf ↔
      header.numVars = cnf.numVars ∧ header.numClauses = cnf.clauses.length ∧
        codes = cnf.codes ∧ cnf.Bounded := by
  rw [Dimacs.finish_eq_ok_iff holds.header]
  constructor
  · rintro ⟨finished, small, counted, rfl⟩
    have codes_eq : codes = Cnf.codes ⟨header.numVars, progress.clauses.toList⟩ := by
      rw [holds.read, finished, List.append_nil, Cnf.codes]
    refine ⟨rfl, counted.symm, codes_eq, Cnf.bounded_iff.mpr ⟨holds.clauses, ?_⟩⟩
    rw [← codes_eq]
    exact (holds.maxVar _).mp small
  · rintro ⟨sameVars, sameClauses, rfl, bounded⟩
    obtain ⟨nonzero, small⟩ := Cnf.bounded_iff.mp bounded
    have groups : progress.clauses.toList ++ [progress.current.toList] = cnf.clauses ++ [[]] := by
      rw [← splitOn_flatMap holds.clauses holds.current, ← holds.read,
        ← splitOn_flatMap nonzero List.not_mem_nil, List.append_nil, Cnf.codes]
    obtain ⟨clauses, current⟩ := List.append_inj' groups rfl
    refine ⟨by simpa using current, ?_, ?_, ?_⟩
    · rw [holds.maxVar, sameVars]
      exact small
    · rw [clauses, sameClauses]
    · rw [clauses, sameVars]

/-- The reader accepts exactly the texts of formulas. -/
theorem parse_eq_ok_iff {text : String} {cnf : Cnf} :
    parse text = .ok cnf ↔ IsFormula (body text) cnf := by
  have nonempty : ∀ line ∈ significantLines text, line.words ≠ [] := by
    intro line member
    have significant := (List.mem_filter.mp member).2
    rw [isSignificant_eq_opensWith] at significant
    simpa using (Bool.and_eq_true_iff.mp significant).1
  rw [parse, ← map_words_significantLines]
  generalize significantLines text = lines at nonempty
  cases lines with
  | nil =>
    constructor
    · intro accepted
      cases accepted
    · rintro ⟨⟩
  | cons first rest =>
    rw [List.foldlM_cons, List.map_cons]
    constructor
    · intro accepted
      obtain ⟨progress, read, accepted⟩ := bind_eq_ok_iff.mp accepted
      obtain ⟨begun, readFirst, readRest⟩ := bind_eq_ok_iff.mp read
      obtain ⟨header, problem, holds⟩ :=
        exists_holds_of_readLine_start (nonempty first (by simp)) readFirst
      have reads := holds.reads_lines rest
      rw [readRest] at reads
      obtain ⟨codes, ints, holds⟩ := reads
      obtain ⟨sameVars, sameClauses, rfl, bounded⟩ := holds.finish_eq_ok_iff.mp accepted
      rw [sameVars, sameClauses] at problem
      exact .mk problem (head?_ne_p ints) ints bounded
    · rintro ⟨problem, -, ints, bounded⟩
      obtain ⟨begun, header, readFirst, holds, sameVars, sameClauses⟩ :=
        problem.exists_readLine_start
      have reads := holds.reads_lines rest
      cases readRest : rest.foldlM readLine begun with
      | error error =>
        rw [readRest] at reads
        exact absurd ints (reads _)
      | ok progress =>
        rw [readRest] at reads
        obtain ⟨codes, read, holds⟩ := reads
        have codes_eq : codes = cnf.codes := List.right_unique_forall₂' rightUnique_isInt read ints
        refine bind_eq_ok_iff.mpr ⟨progress, bind_eq_ok_iff.mpr ⟨begun, readFirst, readRest⟩, ?_⟩
        exact holds.finish_eq_ok_iff.mpr ⟨sameVars, sameClauses, codes_eq, bounded⟩

/-- The grammar does not care how integers are laid out over lines. -/
theorem IsFormula.of_flatten_eq {first : List (List Char)} {rest other : List (List (List Char))}
    {cnf : Cnf} (formula : IsFormula (first :: rest) cnf) (same : rest.flatten = other.flatten) :
    IsFormula (first :: other) cnf := by
  obtain ⟨problem, -, ints, bounded⟩ := formula
  rw [same] at ints
  exact .mk problem (head?_ne_p ints) ints bounded

/-- The reader accepts exactly the texts of formulas, with the formula that the
grammar gives them. So two texts with the same problem line and the same words
behind it, laid out over lines in any way and with any comments between them, are
read alike. -/
theorem parse_accepts_grammar :
    (∀ text cnf, parse text = .ok cnf ↔ IsFormula (body text) cnf) ∧
      ∀ text other first rest otherRest,
        body text = first :: rest → body other = first :: otherRest →
        rest.flatten = otherRest.flatten →
        ∀ cnf, parse text = .ok cnf ↔ parse other = .ok cnf := by
  refine ⟨fun _ _ => parse_eq_ok_iff, ?_⟩
  intro text other first rest otherRest lines otherLines same cnf
  rw [parse_eq_ok_iff, parse_eq_ok_iff, lines, otherLines]
  exact ⟨fun formula => formula.of_flatten_eq same, fun formula => formula.of_flatten_eq same.symm⟩

/-- A formula that is spread over lines with comments between them and an end is
read as it is when each of its clauses stands in one line. -/
theorem parse_accepts_grammar_layouts :
    parse "p cnf 3 2\n1 -3 0 2 0\n" = .ok ⟨3, [[1, -3], [2]]⟩ ∧
      parse "c two\np  cnf 3 2\n1\n\n-3\nc x\n0 2\n0\n% 7" = .ok ⟨3, [[1, -3], [2]]⟩ := by
  have lines : body "p cnf 3 2\n1 -3 0 2 0\n" = [[['p'], ['c', 'n', 'f'], ['3'], ['2']],
      [['1'], ['-', '3'], ['0'], ['2'], ['0']]] := by decide
  have otherLines : body "c two\np  cnf 3 2\n1\n\n-3\nc x\n0 2\n0\n% 7" =
      [[['p'], ['c', 'n', 'f'], ['3'], ['2']], [['1']], [['-', '3']], [['0'], ['2']], [['0']]] := by
    decide
  have read : parse "p cnf 3 2\n1 -3 0 2 0\n" = .ok ⟨3, [[1, -3], [2]]⟩ := by
    refine (parse_accepts_grammar.1 _ _).mpr (lines ▸ .mk ?_ ?_ ?_ ?_)
    · exact .mk (readCount_eq_some_iff.mp (by decide)) (readCount_eq_some_iff.mp (by decide))
    · decide
    · have ints := mapM_eq_some_iff.mp
        (show [['1'], ['-', '3'], ['0'], ['2'], ['0']].mapM readInt = some [1, -3, 0, 2, 0] by decide)
      simp only [readInt_eq_some_iff] at ints
      exact ints
    · rw [Cnf.Bounded]
      decide
  exact ⟨read, (parse_accepts_grammar.2 _ _ _ _ _ lines otherLines rfl _).mp read⟩

end Texts

end Dimacs

end Clausal
