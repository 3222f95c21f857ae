/-!
# Tokens of a formula text

A text is cut into lines at line feeds, and a line into tokens at white space.
A token keeps the column at which it starts, counted in characters from one.
Numbers are read from the characters of a token.
-/

namespace Clausal.Dimacs

/-- White space: the characters that Unicode gives the property of that name. -/
def isBlank (c : Char) : Bool :=
  let code := c.toNat
  (9 ≤ code && code ≤ 13) || code == 32 || code == 0x85 || code == 0xA0 || code == 0x1680 ||
    (0x2000 ≤ code && code ≤ 0x200A) || code == 0x2028 || code == 0x2029 || code == 0x202F ||
    code == 0x205F || code == 0x3000

/-- Characters without white space, and the column of the first. -/
structure Token where
  column : Nat
  chars : List Char
  deriving DecidableEq, Repr

/-- The text of a token. -/
def Token.text (token : Token) : String :=
  String.ofList token.chars

/-- A line with its number, counted from one. -/
structure Line where
  number : Nat
  tokens : List Token
  deriving DecidableEq, Repr

/-- The tokens of the rest of a line, and whether the rest starts with one. -/
structure Rest where
  inToken : Bool
  tokens : List Token

/-- Put a character with its column in front of the rest of a line. -/
def Rest.extend : Char × Nat → Rest → Rest
  | (c, column), ⟨inToken, tokens⟩ =>
    if isBlank c then ⟨false, tokens⟩
    else
      match inToken, tokens with
      | true, token :: tokens => ⟨true, ⟨column, c :: token.chars⟩ :: tokens⟩
      | _, tokens => ⟨true, ⟨column, [c]⟩ :: tokens⟩

/-- The tokens of characters that start at a column. -/
def tokensAt (column : Nat) (chars : List Char) : List Token :=
  ((chars.zipIdx column).foldr Rest.extend ⟨false, []⟩).tokens

/-- The tokens of a line. -/
def tokens (chars : List Char) : List Token :=
  tokensAt 1 chars

/-- Put a character in front of lines; a line feed ends a line. -/
def extendLines (c : Char) : List (List Char) → List (List Char)
  | [] => if c = '\n' then [[], []] else [[c]]
  | line :: lines => if c = '\n' then [] :: line :: lines else (c :: line) :: lines

/-- The lines of a text, without the line feeds that end them. -/
def splitLines (chars : List Char) : List (List Char) :=
  chars.foldr extendLines [[]]

/-- The lines of a text with their tokens. -/
def lines (text : String) : List Line :=
  ((splitLines text.toList).zipIdx 1).map fun (line, number) => ⟨number, tokens line⟩

/-- The number with the given decimal digits, most significant first, after the
digits that make up `high`. -/
def readDigitsAfter (high : Nat) : List Char → Option Nat
  | [] => some high
  | c :: rest =>
    if c.isDigit then readDigitsAfter (high * 10 + (c.toNat - 48)) rest else none

/-- The number with the given decimal digits, of which there is at least one. -/
def readDigits : List Char → Option Nat
  | [] => none
  | digits => readDigitsAfter 0 digits

/-- A number below `2 ^ 64`: decimal digits, with or without a plus sign. -/
def readCount (chars : List Char) : Option Nat :=
  let number :=
    match chars with
    | '+' :: digits => readDigits digits
    | digits => readDigits digits
  number.filter (· < 18446744073709551616)

/-- A number from `-2 ^ 31` to `2 ^ 31 - 1`: decimal digits, with or without a
sign. -/
def readInt (chars : List Char) : Option Int :=
  let number : Option Int :=
    match chars with
    | '-' :: digits => (readDigits digits).map fun n => -(n : Int)
    | '+' :: digits => (readDigits digits).map fun n => (n : Int)
    | digits => (readDigits digits).map fun n => (n : Int)
  number.filter fun n => -2147483648 ≤ n ∧ n < 2147483648

end Clausal.Dimacs
