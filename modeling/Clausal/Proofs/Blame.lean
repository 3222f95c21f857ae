import Mathlib
import Clausal.Proofs.Parsing
import Clausal.Proofs.Places

/-!
# What an error points at

`Blames` says which token of the lines that matter is to blame for what, in terms of
the grammar of formula texts. What is wrong is one of three: the first line is no
problem line (`Misopens`), a word behind it is no integer (`Interrupts`), or the
integers are not those that were declared (`Mismatches`). The first two hold only
if everything in front of the token is in order, so the token is the first of its
kind in reading order.

The reader reports exactly what `Blames` says (`parse_error_locates`): an error has
the place of the token that is to blame. Only where no line matters is there no
such token.
-/

namespace Clausal

section Folds

variable {ε α β : Type}

/-- A sequence of two computations fails if one of them does. -/
theorem bind_eq_error_iff {first : Except ε α} {next : α → Except ε β} {error : ε} :
    (first >>= next) = .error error ↔
      first = .error error ∨ ∃ middle, first = .ok middle ∧ next middle = .error error := by
  cases first <;> simp [bind, Except.bind]

/-- A fold fails at the first item at which the step fails. -/
theorem foldlM_eq_error_iff {step : β → α → Except ε β} {items : List α} {state : β} {error : ε} :
    items.foldlM step state = .error error ↔
      ∃ front item back middle, items = front ++ item :: back ∧
        front.foldlM step state = .ok middle ∧ step middle item = .error error := by
  constructor
  · intro failed
    induction items generalizing state with
    | nil => cases failed
    | cons item items inductionHypothesis =>
      rw [List.foldlM_cons, bind_eq_error_iff] at failed
      rcases failed with failed | ⟨next, taken, failed⟩
      · exact ⟨[], item, items, state, rfl, rfl, failed⟩
      · obtain ⟨front, last, back, middle, rfl, folded, failed⟩ := inductionHypothesis failed
        refine ⟨item :: front, last, back, middle, rfl, ?_, failed⟩
        rw [List.foldlM_cons, taken]
        exact folded
  · rintro ⟨front, item, back, middle, rfl, folded, failed⟩
    rw [List.foldlM_append, folded, bind_eq_error_iff]
    refine .inr ⟨middle, rfl, ?_⟩
    rw [List.foldlM_cons, bind_eq_error_iff]
    exact .inl failed

end Folds

namespace Dimacs

variable {line first : Line} {token vars clauses : Token} {kind : ParseErrorKind} {lines rest : List Line}
  {progress : Progress} {header : Header} {codes : List Int} {numVars numClauses : Nat}

section Opening

/-- A line is a problem line, in which the tokens `vars` and `clauses` declare the
numbers. -/
structure Declares (line : Line) (vars clauses : Token) (numVars numClauses : Nat) : Prop where
  shape : ∃ mark format, line.tokens = [mark, format, vars, clauses] ∧ mark.chars = ['p'] ∧
    format.chars = ['c', 'n', 'f']
  vars : IsCount vars.chars numVars
  clauses : IsCount clauses.chars numClauses

/-- The first line that matters is no problem line, for which a token is to blame. -/
inductive Misopens (line : Line) : Token → ParseErrorKind → Prop
  /-- It starts with something else. -/
  | unmarked {token : Token} {more : List Token} (opening : line.tokens = token :: more)
      (different : token.chars ≠ ['p']) : Misopens line token .clauseBeforeProblemLine
  /-- It has fewer or more tokens. -/
  | length {token : Token} {more : List Token} (opening : line.tokens = token :: more)
      (isMark : token.chars = ['p']) (wrong : line.tokens.length ≠ 4) :
      Misopens line token .malformedProblemLine
  /-- It is about another format. -/
  | format {mark format vars clauses : Token} (opening : line.tokens = [mark, format, vars, clauses])
      (isMark : mark.chars = ['p']) (different : format.chars ≠ ['c', 'n', 'f']) :
      Misopens line format (.invalidToken (String.ofList format.chars) "`cnf`")
  /-- It declares no number of variables. -/
  | vars {mark format vars clauses : Token} (opening : line.tokens = [mark, format, vars, clauses])
      (isMark : mark.chars = ['p']) (isFormat : format.chars = ['c', 'n', 'f'])
      (noCount : ∀ count, ¬ IsCount vars.chars count) :
      Misopens line vars (.invalidToken (String.ofList vars.chars) "a non-negative integer")
  /-- It declares a number of variables, but none of clauses. -/
  | clauses {mark format vars clauses : Token} {numVars : Nat}
      (opening : line.tokens = [mark, format, vars, clauses]) (isMark : mark.chars = ['p'])
      (isFormat : format.chars = ['c', 'n', 'f']) (varsCount : IsCount vars.chars numVars)
      (noCount : ∀ count, ¬ IsCount clauses.chars count) :
      Misopens line clauses (.invalidToken (String.ofList clauses.chars) "a non-negative integer")

theorem readCountAt_of_not_isCount {number : Nat} (noCount : ∀ count, ¬ IsCount token.chars count) :
    readCountAt number token = .error (Place.error ⟨number, token.column⟩
      (.invalidToken (String.ofList token.chars) "a non-negative integer")) := by
  have unread : readCount token.chars = none :=
    Option.eq_none_iff_forall_ne_some.mpr fun count read => noCount count (readCount_eq_some_iff.mp read)
  rw [readCountAt, unread, Token.text]

/-- The reader reports what is wrong with the first line. -/
theorem Misopens.readLine_eq (misopens : Misopens line token kind) :
    readLine .start line = .error ((line.place token).error kind) := by
  obtain ⟨number, tokens⟩ := line
  cases misopens with
  | @unmarked _ more opening different =>
    subst opening
    rw [readLine]
    split
    · next column _ opening =>
      cases opening
      exact absurd rfl different
    · rw [List.foldlM_cons]
      rfl
  | @length _ more opening isMark wrong =>
    subst opening
    obtain ⟨column, chars⟩ := token
    subst isMark
    have malformed : readHeader number column (⟨column, ['p']⟩ :: more) =
        .error (Place.error ⟨number, column⟩ .malformedProblemLine) := by
      rcases more with _ | ⟨format, _ | ⟨vars, _ | ⟨clauses, _ | ⟨further, rest⟩⟩⟩⟩
      · rfl
      · rfl
      · rfl
      · exact absurd rfl wrong
      · rfl
    simp only [readLine, malformed]
    rfl
  | @format mark _ vars clauses opening isMark different =>
    subst opening
    obtain ⟨column, chars⟩ := mark
    subst isMark
    simp only [readLine, readHeader, if_pos different]
    rfl
  | @vars mark format _ clauses opening isMark isFormat noCount =>
    subst opening
    obtain ⟨column, chars⟩ := mark
    subst isMark
    simp only [readLine, readHeader, isFormat, readCountAt_of_not_isCount noCount]
    rfl
  | @clauses mark format vars _ numVars opening isMark isFormat varsCount noCount =>
    subst opening
    obtain ⟨column, chars⟩ := mark
    subst isMark
    simp only [readLine, readHeader, isFormat, readCountAt_eq_ok_iff.mpr varsCount,
      readCountAt_of_not_isCount noCount]
    rfl

/-- What is read at the beginning of a text with a problem line. -/
def Progress.opened (line : Line) (vars clauses : Token) (numVars numClauses : Nat) : Progress :=
  { Progress.start with header := some ⟨numVars, numClauses, line.place vars, line.place clauses⟩ }

theorem Progress.holds_opened (line : Line) (vars clauses : Token) (numVars numClauses : Nat) :
    (opened line vars clauses numVars numClauses).Holds
      ⟨numVars, numClauses, line.place vars, line.place clauses⟩ [] :=
  holds_start _

/-- The reader keeps what a problem line declares. -/
theorem Declares.readLine_eq (declares : Declares line vars clauses numVars numClauses) :
    readLine .start line = .ok (.opened line vars clauses numVars numClauses) := by
  obtain ⟨⟨⟨column, chars⟩, format, opening, isMark, isFormat⟩, varsCount, clausesCount⟩ := declares
  obtain ⟨number, tokens⟩ := line
  subst opening isMark
  simp only [readLine, readHeader, isFormat, readCountAt_eq_ok_iff.mpr varsCount,
    readCountAt_eq_ok_iff.mpr clausesCount]
  rfl

/-- A line with tokens is a problem line, or one of them is to blame. -/
theorem misopens_or_declares (nonempty : line.tokens ≠ []) :
    (∃ token kind, Misopens line token kind) ∨
      ∃ vars clauses numVars numClauses, Declares line vars clauses numVars numClauses := by
  obtain ⟨mark, more, opening⟩ := List.exists_cons_of_ne_nil nonempty
  by_cases isMark : mark.chars = ['p']
  case neg => exact .inl ⟨_, _, .unmarked opening isMark⟩
  by_cases length : line.tokens.length = 4
  case neg => exact .inl ⟨_, _, .length opening isMark length⟩
  obtain ⟨format, vars, clauses, rfl⟩ : ∃ format vars clauses, more = [format, vars, clauses] := by
    rw [opening, List.length_cons, Nat.add_right_cancel_iff] at length
    exact List.length_eq_three.mp length
  by_cases isFormat : format.chars = ['c', 'n', 'f']
  case neg => exact .inl ⟨_, _, .format opening isMark isFormat⟩
  by_cases varsCount : ∃ numVars, IsCount vars.chars numVars
  case neg => exact .inl ⟨_, _, .vars opening isMark isFormat (not_exists.mp varsCount)⟩
  obtain ⟨numVars, varsCount⟩ := varsCount
  by_cases clausesCount : ∃ numClauses, IsCount clauses.chars numClauses
  case neg => exact .inl ⟨_, _, .clauses opening isMark isFormat varsCount (not_exists.mp clausesCount)⟩
  obtain ⟨numClauses, clausesCount⟩ := clausesCount
  exact .inr ⟨_, _, _, _, ⟨_, _, opening, isMark, isFormat⟩, varsCount, clausesCount⟩

end Opening

section Scanning

/-- Behind the problem line, a word is no integer, and all words in front of it are
integers. -/
inductive Interrupts (rest : List Line) : Line → Token → ParseErrorKind → Prop
  /-- The word opens a second problem line. -/
  | mark {front back : List Line} {line : Line} {token : Token} {more : List Token}
      (split : rest = front ++ line :: back)
      (read : ∀ word ∈ front.flatMap Line.words, ∃ code, IsInt word code)
      (opening : line.tokens = token :: more) (isMark : token.chars = ['p']) :
      Interrupts rest line token .duplicateProblemLine
  /-- The word is in a line that is no problem line. -/
  | word {front back : List Line} {line : Line} {token : Token} {left right : List Token}
      (split : rest = front ++ line :: back)
      (read : ∀ word ∈ front.flatMap Line.words, ∃ code, IsInt word code)
      (unmarked : line.words.head? ≠ some ['p']) (inLine : line.tokens = left ++ token :: right)
      (readLeft : ∀ other ∈ left, ∃ code, IsInt other.chars code)
      (noInt : ∀ code, ¬ IsInt token.chars code) :
      Interrupts rest line token (.invalidToken (String.ofList token.chars) "an integer literal")

/-- Words that stand for integers are read. -/
theorem Progress.Reads.exists_ok {words : List (List Char)} {outcome : Except ParseError Progress}
    (reads : Progress.Reads header codes words outcome) {read : List Int}
    (ints : List.Forall₂ IsInt words read) :
    ∃ next, outcome = .ok next ∧ next.Holds header (codes ++ read) := by
  cases outcome with
  | error error => exact absurd ints (reads read)
  | ok next =>
    obtain ⟨other, otherInts, holds⟩ := reads
    obtain rfl : other = read := List.right_unique_forall₂' rightUnique_isInt otherInts ints
    exact ⟨next, rfl, holds⟩

/-- Words that are read stand for integers. -/
theorem Progress.Reads.of_ok {words : List (List Char)} {next : Progress}
    (reads : Progress.Reads header codes words (.ok next)) : ∀ word ∈ words, ∃ code, IsInt word code := by
  obtain ⟨read, ints, -⟩ := reads
  exact fun word => exists_isInt_of_mem ints

/-- A line is read token by token unless it is a problem line. -/
theorem readLine_of_unmarked (unmarked : line.words.head? ≠ some ['p']) :
    readLine progress line = line.tokens.foldlM (readLiteral line.number) progress := by
  rw [readLine]
  split
  · next column more opening =>
    rw [Line.words, opening] at unmarked
    exact absurd rfl unmarked
  · rfl

/-- A second problem line is not read. -/
theorem Progress.Holds.readLine_of_mark (holds : progress.Holds header codes) {more : List Token}
    (opening : line.tokens = token :: more) (isMark : token.chars = ['p']) :
    readLine progress line = .error ((line.place token).error .duplicateProblemLine) := by
  obtain ⟨number, tokens⟩ := line
  obtain ⟨column, chars⟩ := token
  subst opening isMark
  simp only [readLine, holds.header]
  rfl

/-- A word that is no integer is not read. -/
theorem Progress.Holds.readLiteral_eq_error_iff (holds : progress.Holds header codes) {number : Nat}
    {error : ParseError} :
    readLiteral number progress token = .error error ↔ (∀ code, ¬ IsInt token.chars code) ∧
      error = Place.error ⟨number, token.column⟩
        (.invalidToken (String.ofList token.chars) "an integer literal") := by
  have behind : progress.header.isNone = false := by simp [holds.header]
  simp only [readLiteral, behind, Bool.false_eq_true, if_false, ← readInt_eq_some_iff]
  cases readInt token.chars with
  | none => simp [Token.text, eq_comm]
  | some code => by_cases zero : code = 0 <;> simp [zero]

/-- What interrupts the integers is reported. -/
theorem Interrupts.foldlM_eq (interrupts : Interrupts rest line token kind)
    (holds : progress.Holds header codes) :
    rest.foldlM readLine progress = .error ((line.place token).error kind) := by
  have readFront : ∀ {front : List Line}, (∀ word ∈ front.flatMap Line.words, ∃ code, IsInt word code) →
      ∃ middle codes, front.foldlM readLine progress = .ok middle ∧ middle.Holds header codes := by
    intro front read
    obtain ⟨read, ints⟩ := exists_forall₂ read
    rw [List.flatMap_def] at ints
    obtain ⟨middle, folded, holds⟩ := (holds.reads_lines front).exists_ok ints
    exact ⟨middle, _, folded, holds⟩
  rw [foldlM_eq_error_iff]
  cases interrupts with
  | @mark front back _ _ more split read opening isMark =>
    obtain ⟨middle, codes, folded, holds⟩ := readFront read
    exact ⟨front, line, back, middle, split, folded, holds.readLine_of_mark opening isMark⟩
  | @word front back _ _ left right split read unmarked inLine readLeft noInt =>
    obtain ⟨middle, codes, folded, holds⟩ := readFront read
    refine ⟨front, line, back, middle, split, folded, ?_⟩
    obtain ⟨read, ints⟩ := exists_forall₂ readLeft
    obtain ⟨last, foldedLeft, holds⟩ :=
      (holds.reads_tokens line.number left).exists_ok (List.forall₂_map_left_iff.mpr ints)
    rw [readLine_of_unmarked unmarked, foldlM_eq_error_iff]
    exact ⟨left, token, right, last, inLine, foldedLeft, holds.readLiteral_eq_error_iff.mpr ⟨noInt, rfl⟩⟩

/-- What is reported behind the problem line interrupts the integers. -/
theorem Progress.Holds.exists_interrupts (holds : progress.Holds header codes) {error : ParseError}
    (nonempty : ∀ line ∈ rest, line.tokens ≠ []) (failed : rest.foldlM readLine progress = .error error) :
    ∃ line token kind, Interrupts rest line token kind ∧ error = (line.place token).error kind := by
  obtain ⟨front, line, back, middle, split, folded, failed⟩ := foldlM_eq_error_iff.mp failed
  have reads := holds.reads_lines front
  rw [folded] at reads
  have read := reads.of_ok
  rw [← List.flatMap_def] at read
  obtain ⟨_, -, holds⟩ := reads
  obtain ⟨mark, more, opening⟩ := List.exists_cons_of_ne_nil (nonempty line (by simp [split]))
  by_cases isMark : mark.chars = ['p']
  · rw [holds.readLine_of_mark opening isMark] at failed
    cases failed
    exact ⟨line, mark, _, .mark split read opening isMark, rfl⟩
  · have unmarked : line.words.head? ≠ some ['p'] := by simpa [Line.words, opening] using isMark
    rw [readLine_of_unmarked unmarked] at failed
    obtain ⟨left, token, right, last, inLine, foldedLeft, failed⟩ := foldlM_eq_error_iff.mp failed
    have readsLeft := holds.reads_tokens line.number left
    rw [foldedLeft] at readsLeft
    have readLeft := List.forall_mem_map.mp readsLeft.of_ok
    obtain ⟨_, -, holds⟩ := readsLeft
    obtain ⟨noInt, rfl⟩ := holds.readLiteral_eq_error_iff.mp failed
    exact ⟨line, token, _, .word split read unmarked inLine readLeft noInt, rfl⟩

end Scanning

section Finishing

/-- Behind the problem line there are only integers, but not those that it
declares. -/
inductive Mismatches (first : Line) (rest : List Line) : Line → Token → ParseErrorKind → Prop
  /-- The last of them, in the last token of all, does not end a clause. -/
  | unterminated {vars clauses : Token} {numVars numClauses : Nat} {front : List Line} {line : Line}
      {left : List Token} {token : Token} {codes : List Int} {code : Int}
      (declares : Declares first vars clauses numVars numClauses) (split : rest = front ++ [line])
      (inLine : line.tokens = left ++ [token])
      (read : List.Forall₂ IsInt (rest.flatMap Line.words) (codes ++ [code])) (nonzero : code ≠ 0) :
      Mismatches first rest line token .unterminatedClause
  /-- The largest variable is too large. -/
  | variableCount {vars clauses : Token} {numVars numClauses used : Nat} {codes : List Int}
      (declares : Declares first vars clauses numVars numClauses)
      (read : List.Forall₂ IsInt (rest.flatMap Line.words) codes)
      (terminated : ∀ code ∈ codes.getLast?, code = 0) (isUsed : ∃ code ∈ codes, code.natAbs = used)
      (largest : ∀ code ∈ codes, code.natAbs ≤ used) (beyond : numVars < used) :
      Mismatches first rest first vars (.variableCountMismatch numVars used)
  /-- The number of zeros, each of which ends a clause, is another one. -/
  | clauseCount {vars clauses : Token} {numVars numClauses : Nat} {codes : List Int}
      (declares : Declares first vars clauses numVars numClauses)
      (read : List.Forall₂ IsInt (rest.flatMap Line.words) codes)
      (terminated : ∀ code ∈ codes.getLast?, code = 0) (within : ∀ code ∈ codes, code.natAbs ≤ numVars)
      (miscounted : codes.count 0 ≠ numClauses) :
      Mismatches first rest first clauses (.clauseCountMismatch numClauses (codes.count 0))

namespace Progress.Holds

variable (holds : progress.Holds header codes)
include holds

/-- The last clause is finished if the last integer is a zero. -/
theorem current_eq_nil_iff : progress.current.toList = [] ↔ ∀ code ∈ codes.getLast?, code = 0 := by
  constructor
  · intro finished code last
    rw [holds.read, finished, List.append_nil] at last
    rcases List.eq_nil_or_concat progress.clauses.toList with none | ⟨others, clause, split⟩
    · simp [none] at last
    · simpa [split, eq_comm] using last
  · intro terminated
    by_contra unfinished
    obtain ⟨front, code, split⟩ := (List.eq_nil_or_concat _).resolve_left unfinished
    have last : codes.getLast? = some code := by
      rw [holds.read, split]
      simp
    have nonzero := holds.current
    rw [split, terminated code last] at nonzero
    simp at nonzero

/-- Every zero ends a clause. -/
theorem size_clauses : progress.clauses.size = codes.count 0 := by
  have finished : ∀ groups : List (List Int), (∀ group ∈ groups, (0 : Int) ∉ group) →
      (groups.flatMap (· ++ [0])).count 0 = groups.length := by
    intro groups unmarked
    induction groups with
    | nil => rfl
    | cons group groups inductionHypothesis =>
      obtain ⟨head, tail⟩ := List.forall_mem_cons.mp unmarked
      rw [List.flatMap_cons, List.count_append, List.count_append, List.count_eq_zero.mpr head,
        inductionHypothesis tail, List.length_cons]
      simp [Nat.add_comm]
  rw [holds.read, List.count_append, finished _ holds.clauses, List.count_eq_zero.mpr holds.current,
    Array.length_toList, Nat.add_zero]

theorem natAbs_le_maxVar : ∀ code ∈ codes, code.natAbs ≤ progress.maxVar :=
  (holds.maxVar _).mp le_rfl

/-- The largest variable is used, if there is one. -/
theorem exists_natAbs_eq_maxVar (positive : 0 < progress.maxVar) :
    ∃ code ∈ codes, code.natAbs = progress.maxVar := by
  by_contra! smaller
  have less : progress.maxVar ≤ progress.maxVar - 1 := by
    refine (holds.maxVar _).mpr fun code member => ?_
    have small := holds.natAbs_le_maxVar code member
    have different := smaller code member
    omega
  omega

end Progress.Holds

/-- The last place that was noted is that of the last token. -/
theorem last_of_readLine {next : Progress} {left : List Token} (holds : progress.Holds header codes)
    (inLine : line.tokens = left ++ [token]) (read : readLine progress line = .ok next) :
    next.last = line.place token := by
  have unmarked : line.words.head? ≠ some ['p'] := by
    intro marked
    obtain ⟨mark, opening, isMark⟩ := Option.map_eq_some_iff.mp (List.head?_map.symm.trans marked)
    obtain ⟨more, opening⟩ := List.head?_eq_some_iff.mp opening
    rw [holds.readLine_of_mark opening isMark] at read
    cases read
  rw [readLine_of_unmarked unmarked, inLine, List.foldlM_append] at read
  obtain ⟨middle, -, read⟩ := bind_eq_ok_iff.mp read
  rw [List.foldlM_cons] at read
  obtain ⟨last, read, ended⟩ := bind_eq_ok_iff.mp read
  cases ended
  rw [readLiteral] at read
  split at read
  · cases read
  · split at read
    · cases read
    · split at read <;> cases read <;> rfl

theorem last_of_foldlM {next : Progress} {front : List Line} {left : List Token}
    (holds : progress.Holds header codes) (inLine : line.tokens = left ++ [token])
    (folded : (front ++ [line]).foldlM readLine progress = .ok next) : next.last = line.place token := by
  rw [List.foldlM_append] at folded
  obtain ⟨middle, foldedFront, read⟩ := bind_eq_ok_iff.mp folded
  rw [List.foldlM_cons] at read
  obtain ⟨last, read, ended⟩ := bind_eq_ok_iff.mp read
  cases ended
  have reads := holds.reads_lines front
  rw [foldedFront] at reads
  obtain ⟨_, -, holds⟩ := reads
  exact last_of_readLine holds inLine read

namespace Progress.Holds

variable (holds : progress.Holds header codes)
include holds

theorem finish_of_unterminated (unterminated : ¬ ∀ code ∈ codes.getLast?, code = 0) :
    Dimacs.finish progress = .error (progress.last.error .unterminatedClause) := by
  rw [← holds.current_eq_nil_iff] at unterminated
  have unfinished : progress.current.isEmpty = false := by simpa using unterminated
  simp [Dimacs.finish, unfinished]

variable (terminated : ∀ code ∈ codes.getLast?, code = 0)
include terminated

theorem finish_of_terminated :
    Dimacs.finish progress =
      if header.numVars < progress.maxVar then
        .error (header.varsAt.error (.variableCountMismatch header.numVars progress.maxVar))
      else if codes.count 0 ≠ header.numClauses then
        .error (header.clausesAt.error (.clauseCountMismatch header.numClauses (codes.count 0)))
      else .ok ⟨header.numVars, progress.clauses.toList⟩ := by
  have finished : progress.current.isEmpty = true := by
    simpa using holds.current_eq_nil_iff.mpr terminated
  simp [Dimacs.finish, finished, holds.header, holds.size_clauses]

end Progress.Holds

/-- When all lines were read, what the check at the end reports is that the integers are
not those that were declared. -/
theorem Declares.exists_mismatches {next : Progress} {error : ParseError}
    (declares : Declares first vars clauses numVars numClauses)
    (nonempty : ∀ line ∈ rest, line.tokens ≠ [])
    (folded : rest.foldlM readLine (.opened first vars clauses numVars numClauses) = .ok next)
    (failed : finish next = .error error) :
    ∃ line token kind, Mismatches first rest line token kind ∧ error = (line.place token).error kind := by
  have begun := Progress.holds_opened first vars clauses numVars numClauses
  have reads := begun.reads_lines rest
  rw [folded, ← List.flatMap_def] at reads
  obtain ⟨codes, read, holds⟩ := reads
  rw [List.nil_append] at holds
  by_cases terminated : ∀ code ∈ codes.getLast?, code = 0
  · rw [holds.finish_of_terminated terminated] at failed
    split at failed
    · next beyond =>
      cases failed
      exact ⟨first, vars, _, .variableCount declares read terminated
        (holds.exists_natAbs_eq_maxVar (Nat.zero_lt_of_lt beyond)) holds.natAbs_le_maxVar beyond, rfl⟩
    · next within =>
      split at failed
      · next miscounted =>
        cases failed
        exact ⟨first, clauses, _, .clauseCount declares read terminated
          ((holds.maxVar _).mp (Nat.le_of_not_lt within)) miscounted, rfl⟩
      · cases failed
  · rw [holds.finish_of_unterminated terminated] at failed
    cases failed
    push Not at terminated
    obtain ⟨code, last, nonzero⟩ := terminated
    obtain ⟨others, rfl⟩ := List.getLast?_eq_some_iff.mp last
    have someLine : rest ≠ [] := by
      rintro rfl
      cases read.length_eq.trans List.length_append
    obtain ⟨front, line, rfl⟩ := (List.eq_nil_or_concat rest).resolve_left someLine
    obtain ⟨left, token, inLine⟩ :=
      (List.eq_nil_or_concat line.tokens).resolve_left (nonempty line (by simp))
    rw [List.concat_eq_append] at folded inLine
    refine ⟨line, token, _, .unterminated declares (List.concat_eq_append ..) inLine read nonzero, ?_⟩
    rw [last_of_foldlM begun inLine folded]

/-- Integers behind a problem line are read. -/
theorem Declares.exists_holds (declares : Declares first vars clauses numVars numClauses)
    (read : List.Forall₂ IsInt (rest.flatMap Line.words) codes) :
    ∃ next, (first :: rest).foldlM readLine .start = .ok next ∧
      rest.foldlM readLine (.opened first vars clauses numVars numClauses) = .ok next ∧
        next.Holds ⟨numVars, numClauses, first.place vars, first.place clauses⟩ codes := by
  have begun := Progress.holds_opened first vars clauses numVars numClauses
  rw [List.flatMap_def] at read
  obtain ⟨next, folded, holds⟩ := (begun.reads_lines rest).exists_ok read
  refine ⟨next, ?_, folded, holds⟩
  rw [List.foldlM_cons, declares.readLine_eq]
  exact folded

/-- Integers that are not those that were declared are reported. -/
theorem Mismatches.parse_eq (mismatches : Mismatches first rest line token kind) :
    ((first :: rest).foldlM readLine .start >>= finish) = .error ((line.place token).error kind) := by
  rw [bind_eq_error_iff]
  refine .inr ?_
  cases mismatches with
  | @unterminated vars clauses numVars numClauses front _ left _ codes code declares split inLine read
      nonzero =>
    obtain ⟨next, all, folded, holds⟩ := declares.exists_holds read
    refine ⟨next, all, ?_⟩
    subst split
    rw [holds.finish_of_unterminated (by simpa using nonzero), last_of_foldlM (Progress.holds_opened ..) inLine folded]
  | @variableCount vars clauses numVars numClauses used codes declares read terminated isUsed largest beyond =>
    obtain ⟨next, all, -, holds⟩ := declares.exists_holds read
    refine ⟨next, all, ?_⟩
    obtain rfl : next.maxVar = used := by
      obtain ⟨code, member, rfl⟩ := isUsed
      exact le_antisymm ((holds.maxVar _).mpr largest) (holds.natAbs_le_maxVar code member)
    rw [holds.finish_of_terminated terminated, if_pos beyond]
  | @clauseCount vars clauses numVars numClauses codes declares read terminated within miscounted =>
    obtain ⟨next, all, -, holds⟩ := declares.exists_holds read
    refine ⟨next, all, ?_⟩
    rw [holds.finish_of_terminated terminated, if_neg (not_lt.mpr ((holds.maxVar _).mpr within)),
      if_pos miscounted]

end Finishing

section Texts

/-- A token of the lines of a text that matter is to blame: in the first line, in what
follows it, or for what all of them together are not. -/
inductive Blames : List Line → Line → Token → ParseErrorKind → Prop
  | opening {rest : List Line} {line : Line} {token : Token} {kind : ParseErrorKind}
      (misopens : Misopens line token kind) : Blames (line :: rest) line token kind
  | scanning {first : Line} {rest : List Line} {vars clauses : Token} {numVars numClauses : Nat}
      {line : Line} {token : Token} {kind : ParseErrorKind}
      (declares : Declares first vars clauses numVars numClauses)
      (interrupts : Interrupts rest line token kind) : Blames (first :: rest) line token kind
  | finishing {first : Line} {rest : List Line} {line : Line} {token : Token} {kind : ParseErrorKind}
      (mismatches : Mismatches first rest line token kind) : Blames (first :: rest) line token kind

/-- A token that is to blame is one of the tokens. -/
theorem Blames.mem (blames : Blames lines line token kind) : line ∈ lines ∧ token ∈ line.tokens := by
  cases blames with
  | opening misopens => cases misopens <;> simp_all
  | scanning declares interrupts => cases interrupts <;> simp_all
  | finishing mismatches =>
    cases mismatches with
    | unterminated declares split inLine => simp [split, inLine]
    | variableCount declares | clauseCount declares =>
      obtain ⟨mark, format, opening, -⟩ := declares.shape
      simp [opening]

/-- The reader reports the token that is to blame. -/
theorem Blames.parse_eq (blames : Blames lines line token kind) :
    (lines.foldlM readLine .start >>= finish) = .error ((line.place token).error kind) := by
  cases blames with
  | opening misopens =>
    rw [List.foldlM_cons, misopens.readLine_eq]
    rfl
  | scanning declares interrupts =>
    rw [List.foldlM_cons, declares.readLine_eq]
    exact bind_eq_error_iff.mpr (.inl (interrupts.foldlM_eq (Progress.holds_opened ..)))
  | finishing mismatches => exact mismatches.parse_eq

/-- For every error that the reader reports, a token is to blame, if there is a line that
matters. -/
theorem exists_blames {error : ParseError} (nonempty : ∀ line ∈ first :: rest, line.tokens ≠ [])
    (failed : ((first :: rest).foldlM readLine .start >>= finish) = .error error) :
    ∃ line token kind, Blames (first :: rest) line token kind ∧
      error = (line.place token).error kind := by
  obtain ⟨firstNonempty, restNonempty⟩ := List.forall_mem_cons.mp nonempty
  rcases misopens_or_declares firstNonempty with
    ⟨token, kind, misopens⟩ | ⟨vars, clauses, numVars, numClauses, declares⟩
  · rw [(Blames.opening misopens).parse_eq] at failed
    cases failed
    exact ⟨first, token, kind, .opening misopens, rfl⟩
  · rw [List.foldlM_cons, declares.readLine_eq] at failed
    rcases bind_eq_error_iff.mp failed with failed | ⟨next, folded, failed⟩
    · obtain ⟨line, token, kind, interrupts, isError⟩ :=
        (Progress.holds_opened ..).exists_interrupts restNonempty failed
      exact ⟨line, token, kind, .scanning declares interrupts, isError⟩
    · obtain ⟨line, token, kind, mismatches, isError⟩ :=
        declares.exists_mismatches restNonempty folded failed
      exact ⟨line, token, kind, .finishing mismatches, isError⟩

/-- Lines that matter have tokens. -/
theorem tokens_ne_nil_of_mem_significantLines {text : String} (member : line ∈ significantLines text) :
    line.tokens ≠ [] := by
  have significant := (List.mem_filter.mp member).2
  rintro isEmpty
  simp [Line.isSignificant, isEmpty] at significant

/-- A text is refused exactly if no line of it matters, which is reported for its
beginning, or if a token is to blame, which is reported for the place where the token
stands in the text. The tokens are the words of the lines that matter, in the order of
their places. -/
theorem parse_error_locates (text : String) :
    (∀ error, parse text = .error error ↔
      error = ⟨1, 1, .missingProblemLine⟩ ∧ body text = [] ∨
        ∃ line ∈ significantLines text, ∃ token ∈ line.tokens, ∃ kind,
          error = ⟨line.number, token.column, kind⟩ ∧
          StandsAt text ⟨line.number, token.column⟩ token.chars ∧
          Blames (significantLines text) line token kind) ∧
      (significantLines text).map Line.words = body text ∧
        ((significantLines text).flatMap Line.places).Pairwise Place.Before := by
  refine ⟨fun error => ⟨fun failed => ?reported, ?blamed⟩, map_words_significantLines text,
    pairwise_places text⟩
  case reported =>
    rw [parse] at failed
    rw [← map_words_significantLines, List.map_eq_nil_iff]
    cases found : significantLines text with
    | nil =>
      rw [found] at failed
      cases failed
      exact .inl ⟨rfl, rfl⟩
    | cons first rest =>
      have nonempty : ∀ line ∈ first :: rest, line.tokens ≠ [] :=
        fun line member => tokens_ne_nil_of_mem_significantLines (found ▸ member)
      rw [found] at failed
      obtain ⟨line, token, kind, blames, rfl⟩ := exists_blames nonempty failed
      obtain ⟨member, inLine⟩ := blames.mem
      exact .inr ⟨line, member, token, inLine, kind, rfl,
        standsAt_of_mem_significantLines (found ▸ member) inLine, blames⟩
  case blamed =>
    rintro (⟨rfl, none⟩ | ⟨line, -, token, -, kind, rfl, -, blames⟩)
    · rw [← map_words_significantLines, List.map_eq_nil_iff] at none
      rw [parse, none]
      rfl
    · exact blames.parse_eq

/-- Columns count characters, and all white space separates words: the word behind the
integer is reported for the fourth column of the third line, and quoted as a whole. -/
theorem parse_error_locates_word :
    parse "c ä\np cnf 2 1\n\u00a01 groß 0\n" =
        .error ⟨3, 4, .invalidToken "groß" "an integer literal"⟩ ∧
      StandsAt "c ä\np cnf 2 1\n\u00a01 groß 0\n" ⟨3, 4⟩ ['g', 'r', 'o', 'ß'] := by
  have lines : significantLines "c ä\np cnf 2 1\n\u00a01 groß 0\n" =
      [⟨2, [⟨1, ['p']⟩, ⟨3, ['c', 'n', 'f']⟩, ⟨7, ['2']⟩, ⟨9, ['1']⟩]⟩,
        ⟨3, [⟨2, ['1']⟩, ⟨4, ['g', 'r', 'o', 'ß']⟩, ⟨9, ['0']⟩]⟩] := by decide
  have declares : Declares ⟨2, [⟨1, ['p']⟩, ⟨3, ['c', 'n', 'f']⟩, ⟨7, ['2']⟩, ⟨9, ['1']⟩]⟩
      ⟨7, ['2']⟩ ⟨9, ['1']⟩ 2 1 :=
    ⟨⟨_, _, rfl, rfl, rfl⟩, readCount_eq_some_iff.mp (by decide), readCount_eq_some_iff.mp (by decide)⟩
  have noInt : ∀ code, ¬ IsInt ['g', 'r', 'o', 'ß'] code := by
    intro code int
    rw [← readInt_eq_some_iff] at int
    exact absurd (show readInt ['g', 'r', 'o', 'ß'] = none by decide) (by simp [int])
  have interrupts : Interrupts [⟨3, [⟨2, ['1']⟩, ⟨4, ['g', 'r', 'o', 'ß']⟩, ⟨9, ['0']⟩]⟩]
      ⟨3, [⟨2, ['1']⟩, ⟨4, ['g', 'r', 'o', 'ß']⟩, ⟨9, ['0']⟩]⟩ ⟨4, ['g', 'r', 'o', 'ß']⟩
        (.invalidToken "groß" "an integer literal") :=
    @Interrupts.word _ [] [] _ ⟨4, ['g', 'r', 'o', 'ß']⟩ [⟨2, ['1']⟩] [⟨9, ['0']⟩] rfl (by simp)
      (by decide) rfl (by simpa using ⟨1, readInt_eq_some_iff.mp (by decide)⟩) noInt
  have blames := Blames.scanning declares interrupts
  rw [← lines] at blames
  obtain ⟨member, inLine⟩ := blames.mem
  have standsAt := standsAt_of_mem_significantLines member inLine
  exact ⟨((parse_error_locates _).1 _).mpr (.inr ⟨_, member, _, inLine, _, rfl, standsAt, blames⟩), standsAt⟩

end Texts

end Dimacs

end Clausal
