import Mathlib
import Clausal.Proofs.Words

/-!
# Places of words in a text

A word stands at a place of a text if there are as many lines above it and as many
characters to its left as the place says, and white space or the end of the line on
both sides of it (`StandsAt`). Lines and columns are counted from one, and columns in
characters.

Every token that the reader goes through stands at its place
(`standsAt_of_mem_significantLines`), and the places increase in reading order
(`pairwise_places`).
-/

namespace Clausal.Dimacs

section Lines

variable {c : Char} {line word : List Char} {offset : Nat}

/-- A word with white space or an end of the line on both sides, and a number of
characters in front of it. -/
def IsWordAt (line : List Char) (offset : Nat) (word : List Char) : Prop :=
  ∃ front back, line = front ++ word ++ back ∧ front.length = offset ∧
    word ≠ [] ∧ (∀ c ∈ word, isBlank c = false) ∧
      (∀ c ∈ front.getLast?, isBlank c = true) ∧ ∀ c ∈ back.head?, isBlank c = true

/-- One more character in front of a line, which does not touch the word. -/
theorem IsWordAt.cons (isWord : IsWordAt line offset word) (apart : isBlank c = true ∨ offset ≠ 0) :
    IsWordAt (c :: line) (offset + 1) word := by
  obtain ⟨front, back, rfl, rfl, nonempty, solid, left, right⟩ := isWord
  refine ⟨c :: front, back, rfl, rfl, nonempty, solid, ?_, right⟩
  cases front with
  | nil => simpa using apart
  | cons d front => simpa [List.getLast?_cons] using left

/-- One more character of a word at the beginning of a line. -/
theorem IsWordAt.extend (isWord : IsWordAt line 0 word) (nonblank : isBlank c = false) :
    IsWordAt (c :: line) 0 (c :: word) := by
  obtain ⟨front, back, rfl, isEmpty, -, solid, -, right⟩ := isWord
  obtain rfl := List.length_eq_zero_iff.mp isEmpty
  exact ⟨[], back, rfl, rfl, List.cons_ne_nil _ _, List.forall_mem_cons.mpr ⟨nonblank, solid⟩, by simp,
    right⟩

/-- A character in front of white space is a word. -/
theorem isWordAt_singleton (nonblank : isBlank c = false)
    (apart : ∀ d ∈ line.head?, isBlank d = true) : IsWordAt (c :: line) 0 [c] :=
  ⟨[], line, rfl, rfl, List.cons_ne_nil _ _, by simpa using nonblank, by simp, apart⟩

/-- A line that starts with white space does not start with a word. -/
theorem IsWordAt.offset_ne_zero (isWord : IsWordAt line offset word)
    (apart : ∀ d ∈ line.head?, isBlank d = true) : offset ≠ 0 := by
  obtain ⟨front, back, rfl, rfl, nonempty, solid, -, -⟩ := isWord
  intro isEmpty
  obtain rfl := List.length_eq_zero_iff.mp isEmpty
  obtain ⟨d, word, rfl⟩ := List.exists_cons_of_ne_nil nonempty
  have blank := apart d (by simp)
  simp [solid d (by simp)] at blank

/-- The tokens of the rest of a line, which starts at a column, are words of it from
left to right, the first of them at the beginning if the rest starts with one. -/
structure Rest.Marks (rest : Rest) (start : Nat) (line : List Char) : Prop where
  words : ∀ token ∈ rest.tokens, ∃ offset, token.column = start + offset ∧
    IsWordAt line offset token.chars
  increasing : rest.tokens.Pairwise fun token next => token.column < next.column
  begins : rest.inToken = true → ∃ token tokens, rest.tokens = token :: tokens ∧ token.column = start
  apart : rest.inToken = false → ∀ c ∈ line.head?, isBlank c = true

/-- A character more in front of the rest of a line. -/
theorem Rest.Marks.extend {rest : Rest} {start : Nat} (marks : rest.Marks (start + 1) line) (c : Char) :
    (rest.extend (c, start)).Marks start (c :: line) := by
  -- Tokens that the character does not touch are the same words as before.
  have keep : ∀ token ∈ rest.tokens, isBlank c = true ∨ token.column ≠ start + 1 →
      ∃ offset, token.column = start + offset ∧ IsWordAt (c :: line) offset token.chars := by
    intro token member apart
    obtain ⟨offset, column, isWord⟩ := marks.words token member
    exact ⟨offset + 1, by omega, isWord.cons (apart.imp_right fun _ => by omega)⟩
  cases blank : isBlank c with
  | true =>
    rw [extend_of_blank start rest blank]
    exact ⟨fun token member => keep token member (.inl blank), marks.increasing, by simp, by simp [blank]⟩
  | false =>
    obtain ⟨inToken, tokens⟩ := rest
    cases inToken with
    | true =>
      obtain ⟨token, tokens, rfl, column⟩ := marks.begins rfl
      obtain ⟨behind, increasing⟩ := List.pairwise_cons.mp marks.increasing
      obtain ⟨offset, column_eq, isWord⟩ := marks.words token List.mem_cons_self
      obtain rfl : offset = 0 := by omega
      rw [extend_within start token tokens blank]
      refine ⟨List.forall_mem_cons.mpr ⟨⟨0, rfl, isWord.extend blank⟩, fun other member => ?_⟩,
        List.pairwise_cons.mpr ⟨fun other member => ?_, increasing⟩, fun _ => ⟨_, _, rfl, rfl⟩, by simp⟩
      · have further := behind other member
        exact keep other (List.mem_cons_of_mem token member) (.inr (by omega))
      · have further := behind other member
        dsimp only
        omega
    | false =>
      have apart := marks.apart rfl
      have further : ∀ token ∈ tokens, start + 1 < token.column := by
        intro token member
        obtain ⟨offset, column, isWord⟩ := marks.words token member
        have nonzero := isWord.offset_ne_zero apart
        omega
      rw [extend_apart start tokens blank]
      refine ⟨List.forall_mem_cons.mpr ⟨⟨0, rfl, isWordAt_singleton blank apart⟩, fun other member => ?_⟩,
        List.pairwise_cons.mpr ⟨fun other member => ?_, marks.increasing⟩, fun _ => ⟨_, _, rfl, rfl⟩,
        by simp⟩
      · exact keep other member (.inr (further other member).ne')
      · have beyond := further other member
        dsimp only
        omega

theorem marks_foldr_extend (start : Nat) (line : List Char) :
    ((line.zipIdx start).foldr Rest.extend ⟨false, []⟩).Marks start line := by
  induction line generalizing start with
  | nil => exact ⟨by simp, .nil, by simp, by simp⟩
  | cons c line inductionHypothesis => exact (inductionHypothesis (start + 1)).extend c

/-- The tokens of a line are words of it, at the columns where these start. -/
theorem isWordAt_of_mem_tokens {token : Token} (member : token ∈ tokens line) :
    ∃ offset, token.column = offset + 1 ∧ IsWordAt line offset token.chars := by
  obtain ⟨offset, column, isWord⟩ := (marks_foldr_extend 1 line).words token member
  exact ⟨offset, column.trans (Nat.add_comm 1 offset), isWord⟩

theorem pairwise_columns (line : List Char) :
    (tokens line).Pairwise fun token next => token.column < next.column :=
  (marks_foldr_extend 1 line).increasing

end Lines

section Texts

variable {text : String} {line : Line} {token : Token}

/-- A word stands at a place of a text. -/
def StandsAt (text : String) (place : Place) (word : List Char) : Prop :=
  ∃ above line below offset, text.toList.splitOn '\n' = above ++ line :: below ∧
    place.line = above.length + 1 ∧ place.column = offset + 1 ∧ IsWordAt line offset word

/-- The place of a token of a line. -/
def Line.place (line : Line) (token : Token) : Place :=
  ⟨line.number, token.column⟩

/-- The places of the tokens of a line. -/
def Line.places (line : Line) : List Place :=
  line.tokens.map line.place

/-- Places go by line and then by column. -/
def Place.Before (place other : Place) : Prop :=
  place.line < other.line ∨ place.line = other.line ∧ place.column < other.column

theorem significantLines_sublist (text : String) : (significantLines text).Sublist (lines text) :=
  List.filter_sublist.trans (List.takeWhile_sublist _)

/-- A numbered line of a text is the line with that number. -/
theorem exists_splitOn_of_mem_lines (member : line ∈ lines text) :
    ∃ above chars below, text.toList.splitOn '\n' = above ++ chars :: below ∧
      line.number = above.length + 1 ∧ line.tokens = tokens chars := by
  obtain ⟨⟨chars, number⟩, numbered, rfl⟩ := List.mem_map.mp member
  rw [splitLines_eq_splitOn, List.mk_mem_zipIdx_iff_le_and_getElem?_sub] at numbered
  obtain ⟨positive, found⟩ := numbered
  obtain ⟨inside, isLine⟩ := List.getElem?_eq_some_iff.mp found
  refine ⟨(text.toList.splitOn '\n').take (number - 1), chars,
    (text.toList.splitOn '\n').drop (number - 1 + 1), ?_, ?_, rfl⟩
  · rw [← isLine, ← List.drop_eq_getElem_cons inside, List.take_append_drop]
  · rw [List.length_take, Nat.min_eq_left inside.le]
    dsimp only
    omega

/-- Every token that the reader goes through stands at its place. -/
theorem standsAt_of_mem_significantLines (member : line ∈ significantLines text)
    (inLine : token ∈ line.tokens) : StandsAt text (line.place token) token.chars := by
  obtain ⟨above, chars, below, split, number, isTokens⟩ :=
    exists_splitOn_of_mem_lines ((significantLines_sublist text).mem member)
  rw [isTokens] at inLine
  obtain ⟨offset, column, isWord⟩ := isWordAt_of_mem_tokens inLine
  exact ⟨above, chars, below, offset, split, number, column, isWord⟩

theorem pairwise_numbers (text : String) :
    (lines text).Pairwise fun line next => line.number < next.number := by
  have numbers : (lines text).map Line.number = List.range' 1 (splitLines text.toList).length := by
    rw [lines, List.map_map, ← List.zipIdx_map_snd 1]
    rfl
  rw [← List.pairwise_map, numbers]
  exact List.pairwise_lt_range'

/-- The places of the tokens increase in the order in which they are read. -/
theorem pairwise_places (text : String) :
    ((significantLines text).flatMap Line.places).Pairwise Place.Before := by
  refine List.pairwise_flatMap.mpr ⟨fun line member => ?inLine, ?acrossLines⟩
  case inLine =>
    obtain ⟨above, chars, below, -, -, isTokens⟩ :=
      exists_splitOn_of_mem_lines ((significantLines_sublist text).mem member)
    rw [Line.places, List.pairwise_map, isTokens]
    exact (pairwise_columns chars).imp fun further => .inr ⟨rfl, further⟩
  case acrossLines =>
    refine ((pairwise_numbers text).sublist (significantLines_sublist text)).imp ?_
    intro line next below place member other otherMember
    obtain ⟨token, -, rfl⟩ := List.mem_map.mp member
    obtain ⟨otherToken, -, rfl⟩ := List.mem_map.mp otherMember
    exact .inl below

end Texts

end Clausal.Dimacs
