import Mathlib
import Clausal.Dimacs.Reader

/-!
# Words and numerals of a formula text

What a formula text says, without places: its lines, the words of a line, and
the lines that matter. The tokens that the reader works on are these words
(`map_chars_tokens`, `map_words_significantLines`).

Numerals are described by their digits. The two ways to read one accept exactly
the numerals that they are meant for, and give the number that these stand for
(`readCount_eq_some_iff`, `readInt_eq_some_iff`).
-/

namespace Clausal.Dimacs

section Words

/-- The words of a line: its longest runs of characters without white space. -/
def words (chars : List Char) : List (List Char) :=
  (chars.splitOnP isBlank).filter (· ≠ [])

/-- The words of the tokens of a line. -/
def Line.words (line : Line) : List (List Char) :=
  line.tokens.map Token.chars

/-- Whether the first word of a line starts with a character. -/
def opensWith (mark : Char) (line : List (List Char)) : Bool :=
  line.head?.any fun word => word.head? == some mark

/-- The lines of a text that matter, as words: those in front of the first that
opens with `%`, without blank lines and lines that open with `c`. -/
def body (text : String) : List (List (List Char)) :=
  (((text.toList.splitOn '\n').map words).takeWhile fun line => !opensWith '%' line).filter
    fun line => !line.isEmpty && !opensWith 'c' line

theorem extend_of_blank {c : Char} (column : Nat) (rest : Rest) (blank : isBlank c = true) :
    rest.extend (c, column) = ⟨false, rest.tokens⟩ := by
  obtain ⟨inToken, tokens⟩ := rest
  exact if_pos blank

theorem extend_apart {c : Char} (column : Nat) (tokens : List Token) (nonblank : isBlank c = false) :
    Rest.extend (c, column) ⟨false, tokens⟩ = ⟨true, ⟨column, [c]⟩ :: tokens⟩ :=
  if_neg (by simp [nonblank])

theorem extend_within {c : Char} (column : Nat) (token : Token) (tokens : List Token)
    (nonblank : isBlank c = false) :
    Rest.extend (c, column) ⟨true, token :: tokens⟩ =
      ⟨true, ⟨column, c :: token.chars⟩ :: tokens⟩ :=
  if_neg (by simp [nonblank])

/-- A character that is not white space becomes the first of the first token; it
is a token of its own if the rest does not start with one. -/
theorem map_chars_extend {c : Char} (column : Nat) {rest : Rest} (nonblank : isBlank c = false)
    {head : List Char} {tail : List (List Char)} (inToken : rest.inToken = !head.isEmpty)
    (found : rest.tokens.map Token.chars = (head :: tail).filter (· ≠ [])) :
    (rest.extend (c, column)).inToken = true ∧
      (rest.extend (c, column)).tokens.map Token.chars = (c :: head) :: tail.filter (· ≠ []) := by
  obtain ⟨started, tokens⟩ := rest
  cases head with
  | nil =>
    obtain rfl : started = false := inToken
    rw [extend_apart column tokens nonblank]
    simpa using found
  | cons d head =>
    obtain rfl : started = true := inToken
    cases tokens with
    | nil => simp at found
    | cons token tokens =>
      rw [extend_within column token tokens nonblank]
      simpa using found

/-- Where the rest of a line is cut at white space, the first part is empty
exactly if the rest does not start with a token, and the tokens are the parts
that are not empty. -/
theorem exists_splitOnP_eq (column : Nat) (chars : List Char) :
    ∃ head tail, chars.splitOnP isBlank = head :: tail ∧
      ((chars.zipIdx column).foldr Rest.extend ⟨false, []⟩).inToken = !head.isEmpty ∧
      ((chars.zipIdx column).foldr Rest.extend ⟨false, []⟩).tokens.map Token.chars =
        (head :: tail).filter (· ≠ []) := by
  induction chars generalizing column with
  | nil => exact ⟨[], [], by simp⟩
  | cons c chars ih =>
    obtain ⟨head, tail, split, inToken, found⟩ := ih (column + 1)
    rw [List.zipIdx_cons, List.foldr_cons, List.splitOnP_cons_eq_if_modifyHead, split]
    cases blank : isBlank c with
    | true =>
      rw [extend_of_blank column _ blank]
      exact ⟨[], head :: tail, by simp, by simp, by simpa using found⟩
    | false =>
      obtain ⟨started, extended⟩ := map_chars_extend column blank inToken found
      exact ⟨c :: head, tail, by simp, by simpa using started, by simpa using extended⟩

/-- The tokens of a line are its words. -/
theorem map_chars_tokens (chars : List Char) : (tokens chars).map Token.chars = words chars := by
  obtain ⟨head, tail, split, -, found⟩ := exists_splitOnP_eq 1 chars
  rw [tokens, tokensAt, words, split, found]

/-- A text is cut into lines at its line feeds. -/
theorem splitLines_eq_splitOn (chars : List Char) : splitLines chars = chars.splitOn '\n' := by
  induction chars with
  | nil => rfl
  | cons c chars ih =>
    obtain ⟨line, rest, split⟩ :=
      List.exists_cons_of_ne_nil (List.splitOnP_ne_nil (· == '\n') chars)
    rw [List.splitOn, split] at ih
    rw [splitLines, List.foldr_cons, ← splitLines, ih, List.splitOn,
      List.splitOnP_cons_eq_if_modifyHead, split]
    simp [extendLines]

theorem isEnd_eq_opensWith (line : Line) : line.isEnd = opensWith '%' line.words := by
  obtain ⟨number, _ | ⟨⟨column, _ | ⟨c, chars⟩⟩, rest⟩⟩ := line
  · rfl
  · rfl
  · by_cases mark : c = '%' <;> simp [Line.isEnd, Line.words, opensWith, mark]

theorem isSignificant_eq_opensWith (line : Line) :
    line.isSignificant = (!line.words.isEmpty && !opensWith 'c' line.words) := by
  obtain ⟨number, _ | ⟨⟨column, _ | ⟨c, chars⟩⟩, rest⟩⟩ := line
  · rfl
  · rfl
  · by_cases mark : c = 'c' <;> simp [Line.isSignificant, Line.words, opensWith, mark]

/-- The lines that the reader goes through have the words of those that
matter. -/
theorem map_words_significantLines (text : String) :
    (significantLines text).map Line.words = body text := by
  have words : (lines text).map Line.words = (text.toList.splitOn '\n').map words := by
    calc (lines text).map Line.words
        = (((splitLines text.toList).zipIdx 1).map Prod.fst).map words := by
          simp only [lines, List.map_map]
          exact List.map_congr_left fun line _ => map_chars_tokens line.1
      _ = (text.toList.splitOn '\n').map words := by
          rw [List.zipIdx_map_fst, splitLines_eq_splitOn]
  rw [body, ← words, significantLines, List.takeWhile_map, List.filter_map]
  simp only [Function.comp_def, ← isEnd_eq_opensWith, ← isSignificant_eq_opensWith]

/-- White space separates words. -/
theorem words_append_cons {c : Char} (blank : isBlank c = true) (front back : List Char) :
    words (front ++ c :: back) = words front ++ words back := by
  rw [words, List.splitOnP_append_cons front back blank, List.filter_append, words, words]

/-- Characters without white space are one word. -/
theorem words_eq_singleton {chars : List Char} (nonempty : chars ≠ [])
    (nonblank : ∀ c ∈ chars, isBlank c = false) : words chars = [chars] := by
  rw [words, List.splitOnP_eq_singleton nonblank]
  simp [nonempty]

/-- Groups without a mark can be told apart in the list of all of them, each with
the mark behind it. -/
theorem splitOn_flatMap {α : Type} [DecidableEq α] {mark : α} {groups : List (List α)} {last : List α}
    (unmarked : ∀ group ∈ groups, mark ∉ group) (lastUnmarked : mark ∉ last) :
    (groups.flatMap (· ++ [mark]) ++ last).splitOn mark = groups ++ [last] := by
  induction groups with
  | nil =>
    refine List.splitOnP_eq_singleton fun item member => ?_
    simpa using ne_of_mem_of_not_mem member lastUnmarked
  | cons group groups ih =>
    obtain ⟨head, tail⟩ := List.forall_mem_cons.mp unmarked
    rw [List.flatMap_cons, List.append_assoc, List.append_assoc, List.splitOn,
      List.singleton_append, List.splitOnP_append_cons_of_forall_mem (fun item member => by
        simpa using ne_of_mem_of_not_mem member head) mark (by simp)]
    exact congrArg (group :: ·) (ih tail)

end Words

section Numerals

/-- Decimal digits, at least one, and the number that they stand for. -/
structure IsDecimal (chars : List Char) (number : Nat) : Prop where
  nonempty : chars ≠ []
  digits : ∀ c ∈ chars, c.isDigit
  value : Nat.ofDigitChars 10 chars 0 = number

/-- The numerals of counts, which are below `2 ^ 64`. -/
inductive IsCount : List Char → Nat → Prop
  | plain {chars number} : IsDecimal chars number → number < 2 ^ 64 → IsCount chars number
  | plus {chars number} : IsDecimal chars number → number < 2 ^ 64 → IsCount ('+' :: chars) number

/-- The numerals of integers with 32 bits. -/
inductive IsInt : List Char → Int → Prop
  | plain {chars} {number : Nat} :
    IsDecimal chars number → number < 2 ^ 31 → IsInt chars number
  | plus {chars} {number : Nat} :
    IsDecimal chars number → number < 2 ^ 31 → IsInt ('+' :: chars) number
  | minus {chars} {number : Nat} :
    IsDecimal chars number → number ≤ 2 ^ 31 → IsInt ('-' :: chars) (-number)

theorem readDigitsAfter_eq_some_iff {high number : Nat} {chars : List Char} :
    readDigitsAfter high chars = some number ↔
      (∀ c ∈ chars, c.isDigit) ∧ Nat.ofDigitChars 10 chars high = number := by
  induction chars generalizing high with
  | nil => simp [readDigitsAfter]
  | cons c chars ih =>
    by_cases digit : c.isDigit
    · simp [readDigitsAfter, digit, ih, Nat.ofDigitChars_cons, Nat.mul_comm]
    · simp [readDigitsAfter, digit]

/-- Digits are read as the number that they stand for. -/
theorem readDigits_eq_some_iff {chars : List Char} {number : Nat} :
    readDigits chars = some number ↔ IsDecimal chars number := by
  cases chars with
  | nil =>
    refine ⟨by simp [readDigits], fun decimal => absurd rfl decimal.nonempty⟩
  | cons c chars =>
    rw [readDigits, readDigitsAfter_eq_some_iff]
    exact ⟨fun read => ⟨by simp, read.1, read.2⟩, fun decimal => ⟨decimal.digits, decimal.value⟩⟩
    simp

/-- A sign is no digit. -/
theorem not_isDecimal_cons {c : Char} {chars : List Char} {number : Nat}
    (sign : c.isDigit = false) : ¬ IsDecimal (c :: chars) number := fun decimal => by
  have digit := decimal.digits c (by simp)
  simp [sign] at digit

/-- Counts are read as the numbers that they stand for, and nothing else is
read. -/
theorem readCount_eq_some_iff {chars : List Char} {number : Nat} :
    readCount chars = some number ↔ IsCount chars number := by
  constructor
  · intro read
    obtain ⟨read, small⟩ := Option.filter_eq_some_iff.mp read
    replace small : number < 2 ^ 64 := by simpa using small
    split at read
    · exact .plus (readDigits_eq_some_iff.mp read) small
    · exact .plain (readDigits_eq_some_iff.mp read) small
  · intro count
    refine Option.filter_eq_some_iff.mpr ?_
    cases count with
    | plain decimal small =>
      refine ⟨?_, by simpa using small⟩
      split
      · exact absurd decimal (not_isDecimal_cons (by decide))
      · exact readDigits_eq_some_iff.mpr decimal
    | plus decimal small => exact ⟨readDigits_eq_some_iff.mpr decimal, by simpa using small⟩

theorem IsCount.lt {chars : List Char} {number : Nat} (count : IsCount chars number) :
    number < 2 ^ 64 := by
  cases count <;> assumption

theorem IsInt.fits {chars : List Char} {code : Int} (int : IsInt chars code) :
    -2 ^ 31 ≤ code ∧ code < 2 ^ 31 := by
  cases int <;> omega

/-- Integers are read as the numbers that they stand for, and nothing else is
read. -/
theorem readInt_eq_some_iff {chars : List Char} {code : Int} :
    readInt chars = some code ↔ IsInt chars code := by
  constructor
  · intro read
    obtain ⟨read, small⟩ := Option.filter_eq_some_iff.mp read
    replace small : -2 ^ 31 ≤ code ∧ code < 2 ^ 31 := by simpa using small
    split at read <;>
      simp only [bind_pure_comp, Option.map_eq_map, Option.map_map, Option.map_eq_some_iff] at read <;>
      obtain ⟨number, digits, rfl⟩ := read <;>
      simp only [Function.comp_apply] at small ⊢
    · exact .minus (readDigits_eq_some_iff.mp digits) (by omega)
    · exact .plus (readDigits_eq_some_iff.mp digits) (by omega)
    · exact .plain (readDigits_eq_some_iff.mp digits) (by omega)
  · intro int
    refine Option.filter_eq_some_iff.mpr ?_
    cases int with
    | plain decimal small =>
      refine ⟨?_, by simp; omega⟩
      split
      · exact absurd decimal (not_isDecimal_cons (by decide))
      · exact absurd decimal (not_isDecimal_cons (by decide))
      · simp [readDigits_eq_some_iff.mpr decimal]
    | plus decimal small => exact ⟨by simp [readDigits_eq_some_iff.mpr decimal], by simp; omega⟩
    | minus decimal small => exact ⟨by simp [readDigits_eq_some_iff.mpr decimal], by simp; omega⟩

end Numerals

end Clausal.Dimacs
