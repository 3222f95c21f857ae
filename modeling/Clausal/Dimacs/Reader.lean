import Clausal.Cnf
import Clausal.Dimacs.Token

/-!
# Reading formulas

The reader of DIMACS texts. Blank lines and lines whose first token starts with
`c` are skipped, and a line whose first token starts with `%` ends the text. One
problem line stands in front of the clauses, which may be laid out over lines in
any way.

An error names the line and column of the token that is to blame. Tokens are
read in order, and the first error is reported; whether the counts of the
problem line are right is checked at the end.
-/

namespace Clausal

/-- What is wrong with a formula text. -/
inductive ParseErrorKind where
  /-- A token that is not what was expected. -/
  | invalidToken (token expected : String)
  /-- There is no problem line. -/
  | missingProblemLine
  /-- There is a second problem line. -/
  | duplicateProblemLine
  /-- There is a clause in front of the problem line. -/
  | clauseBeforeProblemLine
  /-- The problem line does not have four tokens. -/
  | malformedProblemLine
  /-- The last clause has no end. -/
  | unterminatedClause
  /-- A variable beyond the declared number is used. -/
  | variableCountMismatch (declared used : Nat)
  /-- The number of clauses is not the declared one. -/
  | clauseCountMismatch (declared parsed : Nat)
  deriving DecidableEq, Repr

/-- The wording of what is wrong. -/
def ParseErrorKind.message : ParseErrorKind → String
  | .invalidToken token expected => "invalid token `" ++ token ++ "`, expected " ++ expected
  | .missingProblemLine => "missing `p cnf` problem line"
  | .duplicateProblemLine => "duplicate problem line"
  | .clauseBeforeProblemLine => "clause before the problem line"
  | .malformedProblemLine => "problem line must be `p cnf <variables> <clauses>`"
  | .unterminatedClause => "last clause is not terminated by 0"
  | .variableCountMismatch declared used =>
    "declared " ++ declared.repr ++ " variables, but variable " ++ used.repr ++ " is used"
  | .clauseCountMismatch declared parsed =>
    "declared " ++ declared.repr ++ " clauses, but " ++ parsed.repr ++ " clauses were parsed"

/-- An error at a line and column, both counted from one. -/
structure ParseError where
  line : Nat
  column : Nat
  kind : ParseErrorKind
  deriving DecidableEq, Repr

/-- The wording of an error, with its place in front. -/
def ParseError.message (error : ParseError) : String :=
  error.line.repr ++ ":" ++ error.column.repr ++ ": " ++ error.kind.message

namespace Dimacs

/-- A place in a text. -/
structure Place where
  line : Nat
  column : Nat
  deriving DecidableEq, Repr

/-- An error at a place. -/
def Place.error (place : Place) (kind : ParseErrorKind) : ParseError :=
  ⟨place.line, place.column, kind⟩

/-- The problem line: the declared counts and where they stand. -/
structure Header where
  numVars : Nat
  numClauses : Nat
  varsAt : Place
  clausesAt : Place
  deriving DecidableEq, Repr

/-- What was read so far: the problem line, the finished clauses, the literals
of the clause that is not finished, the largest variable, and the place of the
last literal. -/
structure Progress where
  header : Option Header
  clauses : Array (List Int)
  current : Array Int
  maxVar : Nat
  last : Place

/-- Nothing was read. -/
def Progress.start : Progress :=
  ⟨none, #[], #[], 0, ⟨1, 1⟩⟩

/-- Read a count of the problem line. -/
def readCountAt (line : Nat) (token : Token) : Except ParseError Nat :=
  match readCount token.chars with
  | some count => .ok count
  | none =>
    .error ((Place.mk line token.column).error (.invalidToken token.text "a non-negative integer"))

/-- Read a problem line, given the column of its first token. -/
def readHeader (line column : Nat) (tokens : List Token) : Except ParseError Header :=
  match tokens with
  | [_, format, vars, clauses] => do
    if format.chars ≠ ['c', 'n', 'f'] then
      throw ((Place.mk line format.column).error (.invalidToken format.text "`cnf`"))
    let numVars ← readCountAt line vars
    let numClauses ← readCountAt line clauses
    return ⟨numVars, numClauses, ⟨line, vars.column⟩, ⟨line, clauses.column⟩⟩
  | _ => .error ((Place.mk line column).error .malformedProblemLine)

/-- Read a literal, or the zero that ends a clause. -/
def readLiteral (line : Nat) (progress : Progress) (token : Token) : Except ParseError Progress :=
  let place : Place := ⟨line, token.column⟩
  if progress.header.isNone then .error (place.error .clauseBeforeProblemLine)
  else
    match readInt token.chars with
    | none => .error (place.error (.invalidToken token.text "an integer literal"))
    | some code =>
      if code = 0 then
        .ok { progress with
          clauses := progress.clauses.push progress.current.toList
          current := #[]
          last := place }
      else
        .ok { progress with
          current := progress.current.push code
          maxVar := max progress.maxVar code.natAbs
          last := place }

/-- Whether a line ends the text. -/
def Line.isEnd (line : Line) : Bool :=
  match line.tokens with
  | ⟨_, '%' :: _⟩ :: _ => true
  | _ => false

/-- Whether a line is neither blank nor a comment. -/
def Line.isSignificant (line : Line) : Bool :=
  match line.tokens with
  | [] => false
  | ⟨_, 'c' :: _⟩ :: _ => false
  | _ => true

/-- The lines that matter: those in front of the end that are neither blank nor
comments. -/
def significantLines (text : String) : List Line :=
  ((lines text).takeWhile fun line => !line.isEnd).filter Line.isSignificant

/-- Read a line that matters. -/
def readLine (progress : Progress) (line : Line) : Except ParseError Progress :=
  match line.tokens with
  | ⟨column, ['p']⟩ :: _ =>
    if progress.header.isSome then
      .error ((Place.mk line.number column).error .duplicateProblemLine)
    else do
      let header ← readHeader line.number column line.tokens
      return { progress with header := some header }
  | tokens => tokens.foldlM (readLiteral line.number) progress

/-- Check that the last clause is finished and that the declared counts are
right. -/
def finish (progress : Progress) : Except ParseError Cnf :=
  if !progress.current.isEmpty then .error (progress.last.error .unterminatedClause)
  else
    match progress.header with
    | none => .error ((Place.mk 1 1).error .missingProblemLine)
    | some header =>
      if header.numVars < progress.maxVar then
        .error (header.varsAt.error (.variableCountMismatch header.numVars progress.maxVar))
      else if progress.clauses.size ≠ header.numClauses then
        .error (header.clausesAt.error
          (.clauseCountMismatch header.numClauses progress.clauses.size))
      else .ok ⟨header.numVars, progress.clauses.toList⟩

/-- Read a formula text. -/
def parse (text : String) : Except ParseError Cnf := do
  let progress ← (significantLines text).foldlM readLine .start
  finish progress

/-- Why a formula file cannot be loaded. -/
inductive LoadError where
  /-- The text is no formula. -/
  | parse (cause : ParseError)
  /-- There is no file, or it is no text. -/
  | unreadable
  deriving DecidableEq, Repr

/-- The wording of an error, with the kind in front. -/
def LoadError.message : LoadError → String
  | .parse cause => "Parse error: " ++ cause.message
  | .unreadable => "I/O error"

/-- Load a formula from the bytes of a file in UTF-8, if there is one. -/
def load (content : Option ByteArray) : Except LoadError Cnf :=
  match content.bind String.fromUTF8? with
  | none => .error .unreadable
  | some text => (parse text).mapError .parse

end Dimacs

end Clausal
