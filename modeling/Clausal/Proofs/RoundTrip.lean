import Mathlib
import Clausal.Dimacs.Printer
import Clausal.Proofs.Parsing

/-!
# Writing formulas and reading them again

The lines of a written formula are the problem line and one line for each clause
(`body_print`), and every number in them is written as a numeral of it. With the
grammar of formula texts this says which formulas can be read again: those whose
literals all stand for variables (`parse_print_eq_ok_iff`). The others are not
read as anything else.
-/

namespace Clausal

/-- The numbers of a formula fit into words: counts into 64 bits, literals into
32 bits with a sign. -/
structure Cnf.Fits (cnf : Cnf) : Prop where
  numVars : cnf.numVars < 2 ^ 64
  numClauses : cnf.clauses.length < 2 ^ 64
  literals : ∀ clause ∈ cnf.clauses, ∀ code ∈ clause, -2 ^ 31 ≤ code ∧ code < 2 ^ 31

namespace Dimacs

section Numerals

/-- The decimal text of a number is a numeral of it. -/
theorem isDecimal_repr (number : Nat) : IsDecimal number.repr.toList number where
  nonempty := by simp [Nat.toList_repr]
  digits := by
    rw [Nat.toList_repr]
    exact fun c member => Nat.isDigit_of_mem_toDigits (by decide) (by decide) member
  value := by
    rw [Nat.toList_repr]
    exact Nat.ofDigitChars_toDigits (by decide) (by decide)

theorem isCount_repr {number : Nat} (small : number < 2 ^ 64) :
    IsCount number.repr.toList number :=
  .plain (isDecimal_repr number) small

theorem repr_negSucc (number : Nat) :
    (Int.negSucc number).repr.toList = '-' :: (number + 1).repr.toList := by
  simp [Int.repr]

theorem isInt_repr {code : Int} (fits : -2 ^ 31 ≤ code ∧ code < 2 ^ 31) :
    IsInt code.repr.toList code := by
  cases code with
  | ofNat number => exact .plain (isDecimal_repr number) (by simp at fits; omega)
  | negSucc number =>
    rw [repr_negSucc]
    exact .minus (isDecimal_repr (number + 1)) (by omega)

/-- The text of a number has digits, and perhaps a sign. -/
theorem isDigit_or_eq_of_mem_repr {code : Int} {c : Char} (member : c ∈ code.repr.toList) :
    c.isDigit = true ∨ c = '-' := by
  cases code with
  | ofNat number => exact .inl ((isDecimal_repr number).digits c member)
  | negSucc number =>
    rw [repr_negSucc, List.mem_cons] at member
    rcases member with sign | digit
    · exact .inr sign
    · exact .inl ((isDecimal_repr (number + 1)).digits c digit)

theorem repr_ne_nil (code : Int) : code.repr.toList ≠ [] := by
  cases code with
  | ofNat number => exact (isDecimal_repr number).nonempty
  | negSucc number => simp [repr_negSucc]

theorem isBlank_of_isDigit {c : Char} (digit : c.isDigit = true) : isBlank c = false := by
  have bounds : 48 ≤ c.toNat ∧ c.toNat ≤ 57 := by simpa [Char.isDigit_iff_toNat] using digit
  simp only [isBlank, Bool.or_eq_false_iff, Bool.and_eq_false_iff, decide_eq_false_iff_not,
    beq_eq_false_iff_ne]
  omega

/-- The text of a number is one word. -/
theorem words_repr (code : Int) : words code.repr.toList = [code.repr.toList] := by
  refine words_eq_singleton (repr_ne_nil code) fun c member => ?_
  rcases isDigit_or_eq_of_mem_repr member with digit | rfl
  · exact isBlank_of_isDigit digit
  · decide

end Numerals

section Lines

/-- The characters of the line of a clause. -/
def clauseChars (clause : List Int) : List Char :=
  clause.flatMap (fun code => code.repr.toList ++ [' ']) ++ ['0']

/-- The characters of the problem line of a formula. -/
def problemChars (cnf : Cnf) : List Char :=
  ['p', ' ', 'c', 'n', 'f', ' '] ++ cnf.numVars.repr.toList ++ ' ' :: cnf.clauses.length.repr.toList

/-- The words of the line of a clause. -/
def clauseWords (clause : List Int) : List (List Char) :=
  (clause ++ [0]).map fun code : Int => code.repr.toList

/-- The words of the problem line of a formula. -/
def problemWords (cnf : Cnf) : List (List Char) :=
  [['p'], ['c', 'n', 'f'], cnf.numVars.repr.toList, cnf.clauses.length.repr.toList]

/-- A written formula is a problem line and a line for each clause, each with a
line feed behind it. -/
theorem toList_print (cnf : Cnf) :
    (print cnf).toList =
      (problemChars cnf :: cnf.clauses.map clauseChars).flatMap (· ++ ['\n']) := by
  have clause : ∀ clause, (printClause clause).toList = clauseChars clause ++ ['\n'] := by
    intro clause
    simp [printClause, clauseChars, String.toList_join, List.flatMap_map]
  simp [print, problemChars, String.toList_join, List.flatMap_map, clause]

/-- The line of a clause has a word for each literal and one for its end. -/
theorem words_clauseChars (clause : List Int) : words (clauseChars clause) = clauseWords clause := by
  induction clause with
  | nil => decide
  | cons code clause ih =>
    calc words (clauseChars (code :: clause))
        = words (code.repr.toList ++ ' ' :: clauseChars clause) := by simp [clauseChars]
      _ = words code.repr.toList ++ words (clauseChars clause) :=
          words_append_cons (by decide) _ _
      _ = clauseWords (code :: clause) := by
          rw [words_repr, ih]
          rfl

/-- The problem line has four words. -/
theorem words_problemChars (cnf : Cnf) : words (problemChars cnf) = problemWords cnf := by
  calc words (problemChars cnf)
      = words (['p'] ++ ' ' :: (['c', 'n', 'f'] ++ ' ' ::
          (cnf.numVars.repr.toList ++ ' ' :: cnf.clauses.length.repr.toList))) := by
        simp [problemChars]
    _ = words ['p'] ++ (words ['c', 'n', 'f'] ++
          (words cnf.numVars.repr.toList ++ words cnf.clauses.length.repr.toList)) := by
        rw [words_append_cons (by decide), words_append_cons (by decide),
          words_append_cons (by decide)]
    _ = problemWords cnf := by
        rw [show words ['p'] = [['p']] by decide,
          show words ['c', 'n', 'f'] = [['c', 'n', 'f']] by decide]
        exact congrArg₂ (fun vars clauses => ['p'] :: ['c', 'n', 'f'] :: (vars ++ clauses))
          (words_repr cnf.numVars) (words_repr cnf.clauses.length)

/-- A line feed is not part of a number. -/
theorem newline_not_mem_repr (code : Int) : '\n' ∉ code.repr.toList := fun member => by
  rcases isDigit_or_eq_of_mem_repr member with digit | sign
  · exact absurd digit (by decide)
  · exact absurd sign (by decide)

/-- No line that is written has a line feed in it. -/
theorem newline_not_mem_lines (cnf : Cnf) :
    ∀ line ∈ problemChars cnf :: cnf.clauses.map clauseChars, '\n' ∉ line := by
  rw [List.forall_mem_cons, List.forall_mem_map]
  constructor
  · intro member
    rcases List.mem_append.mp member with front | back
    · rcases List.mem_append.mp front with mark | vars
      · exact absurd mark (by decide)
      · exact newline_not_mem_repr cnf.numVars vars
    · exact newline_not_mem_repr cnf.clauses.length (List.mem_of_ne_of_mem (by decide) back)
  · intro clause _
    simp [clauseChars, newline_not_mem_repr]

/-- The line of a clause opens with a digit or a sign. -/
theorem opensWith_clauseWords {mark : Char} (noDigit : mark.isDigit = false) (noSign : mark ≠ '-')
    (clause : List Int) : opensWith mark (clauseWords clause) = false := by
  have apart : ∀ code : Int, code.repr.toList.head? ≠ some mark := by
    intro code opening
    rcases isDigit_or_eq_of_mem_repr (List.mem_of_mem_head? opening) with digit | sign
    · simp [noDigit] at digit
    · exact noSign sign
  cases clause <;> simp [opensWith, clauseWords, apart]

/-- The lines of a written formula that matter are all of its lines. -/
theorem body_print (cnf : Cnf) :
    body (print cnf) = problemWords cnf :: cnf.clauses.map clauseWords := by
  have lines : ((print cnf).toList.splitOn '\n').map words =
      (problemWords cnf :: cnf.clauses.map clauseWords) ++ [[]] := by
    have split := splitOn_flatMap (newline_not_mem_lines cnf) List.not_mem_nil
    rw [List.append_nil, ← toList_print] at split
    rw [split, List.map_append, List.map_cons, words_problemChars, List.map_map]
    simp only [Function.comp_def, words_clauseChars]
    rfl
  have opening : ∀ mark, mark = '%' ∨ mark = 'c' →
      ∀ line ∈ problemWords cnf :: cnf.clauses.map clauseWords, opensWith mark line = false := by
    rintro mark (rfl | rfl) <;> rw [List.forall_mem_cons, List.forall_mem_map] <;>
      exact ⟨rfl, fun clause _ => opensWith_clauseWords (by decide) (by decide) clause⟩
  have nonempty : ∀ line ∈ problemWords cnf :: cnf.clauses.map clauseWords, line ≠ [] := by
    rw [List.forall_mem_cons, List.forall_mem_map]
    exact ⟨List.cons_ne_nil _ _, fun clause _ => by simp [clauseWords]⟩
  rw [body, lines, List.takeWhile_eq_self_iff.mpr]
  · rw [List.filter_append, List.filter_eq_self.mpr]
    · simp
    · intro line member
      simp [opening 'c' (.inr rfl) line member, nonempty line member]
  · rw [List.forall_mem_append]
    exact ⟨fun line member => by simp [opening '%' (.inl rfl) line member], by simp [opensWith]⟩

end Lines

section RoundTrip

/-- A written formula whose numbers fit is a formula text, for the numbers. -/
theorem forall₂_isInt_codes {cnf : Cnf} (fits : cnf.Fits) :
    List.Forall₂ IsInt (cnf.clauses.map clauseWords).flatten cnf.codes := by
  have words : (cnf.clauses.map clauseWords).flatten =
      cnf.codes.map fun code : Int => code.repr.toList := by
    rw [Cnf.codes, List.map_flatMap, List.flatMap_def]
    rfl
  rw [words, List.forall₂_map_left_iff, List.forall₂_same]
  intro code member
  obtain ⟨clause, inClauses, inClause⟩ := List.mem_flatMap.mp member
  rcases List.mem_append.mp inClause with literal | zero
  · exact isInt_repr (fits.literals clause inClauses code literal)
  · rw [List.mem_singleton.mp zero]
    exact isInt_repr (by decide)

/-- Each clause brings its end and its zeros. -/
theorem count_zero_codes (cnf : Cnf) :
    cnf.codes.count 0 = cnf.clauses.length + cnf.clauses.flatten.count 0 := by
  rw [Cnf.codes]
  induction cnf.clauses with
  | nil => rfl
  | cons clause clauses ih =>
    rw [List.flatMap_cons, List.count_append, ih, List.count_append, List.flatten_cons,
      List.count_append, List.length_cons, List.count_singleton_self]
    omega

/-- Two formulas with the same numbers are the same if one of them has no literal
that is zero: the other cannot have one either, as it has as many clauses. -/
theorem eq_of_codes_eq {cnf other : Cnf} (vars : other.numVars = cnf.numVars)
    (clauses : other.clauses.length = cnf.clauses.length) (codes : other.codes = cnf.codes)
    (nonzero : ∀ clause ∈ other.clauses, (0 : Int) ∉ clause) : other = cnf := by
  have zeros : cnf.clauses.flatten.count 0 = 0 := by
    have none : other.clauses.flatten.count 0 = 0 := by
      rw [List.count_eq_zero, List.mem_flatten]
      rintro ⟨clause, member, zero⟩
      exact nonzero clause member zero
    have counted := congrArg (List.count 0) codes
    rw [count_zero_codes, count_zero_codes] at counted
    omega
  have alsoNonzero : ∀ clause ∈ cnf.clauses, (0 : Int) ∉ clause := fun clause member zero =>
    List.count_eq_zero.mp zeros (List.mem_flatten.mpr ⟨clause, member, zero⟩)
  have groups : other.clauses ++ [[]] = cnf.clauses ++ [[]] := by
    rw [← splitOn_flatMap nonzero List.not_mem_nil, ← splitOn_flatMap alsoNonzero List.not_mem_nil]
    exact congrArg (fun codes => (codes ++ []).splitOn 0) codes
  exact congrArg₂ Cnf.mk vars (List.append_cancel_right groups)

/-- What is read from a written formula is the formula, and it is read exactly if
its literals stand for variables. -/
theorem parse_print_eq_ok_iff {cnf other : Cnf} (fits : cnf.Fits) :
    parse (print cnf) = .ok other ↔ other = cnf ∧ cnf.Bounded := by
  rw [parse_eq_ok_iff, body_print]
  constructor
  · intro formula
    cases formula with
    | mk problem _ ints bounded =>
      obtain ⟨vars, clauses⟩ : other.numVars = cnf.numVars ∧
          other.clauses.length = cnf.clauses.length := by
        cases problem with
        | mk vars clauses =>
          exact ⟨rightUnique_isCount vars (isCount_repr fits.numVars),
            rightUnique_isCount clauses (isCount_repr fits.numClauses)⟩
      have codes : other.codes = cnf.codes :=
        List.right_unique_forall₂' rightUnique_isInt ints (forall₂_isInt_codes fits)
      obtain rfl := eq_of_codes_eq vars clauses codes (Cnf.bounded_iff.mp bounded).1
      exact ⟨rfl, bounded⟩
  · rintro ⟨rfl, bounded⟩
    exact .mk (.mk (isCount_repr fits.numVars) (isCount_repr fits.numClauses))
      (head?_ne_p (forall₂_isInt_codes fits)) (forall₂_isInt_codes fits) bounded

/-- Integers that were read fit. -/
theorem fits_of_forall₂_isInt {words : List (List Char)} {codes : List Int}
    (ints : List.Forall₂ IsInt words codes) : ∀ code ∈ codes, -2 ^ 31 ≤ code ∧ code < 2 ^ 31 := by
  induction ints with
  | nil => simp
  | cons int _ ih => exact List.forall_mem_cons.mpr ⟨int.fits, ih⟩

/-- The numbers of a formula that was read fit into words, and its literals stand
for variables. -/
theorem fits_and_bounded_of_parse {text : String} {cnf : Cnf} (read : parse text = .ok cnf) :
    cnf.Fits ∧ cnf.Bounded := by
  obtain ⟨lines, formula⟩ : ∃ lines, IsFormula lines cnf := ⟨_, parse_eq_ok_iff.mp read⟩
  obtain ⟨problem, -, ints, bounded⟩ := formula
  obtain ⟨vars, clauses⟩ := problem
  refine ⟨⟨vars.lt, clauses.lt, fun clause inClauses code inClause => ?_⟩, bounded⟩
  have member : code ∈ cnf.codes :=
    List.mem_flatMap.mpr ⟨clause, inClauses, List.mem_append_left _ inClause⟩
  exact fits_of_forall₂_isInt ints code member

/-- A formula whose numbers fit can be written and read again exactly if its
literals stand for variables, and it is not read as another one. In particular
what was read once is the same when it is written and read again. -/
theorem parse_print_round_trip :
    (∀ cnf : Cnf, cnf.Fits →
      (parse (print cnf) = .ok cnf ↔ cnf.Bounded) ∧
        ∀ other, parse (print cnf) = .ok other → other = cnf) ∧
      ∀ text cnf, parse text = .ok cnf → parse (print cnf) = .ok cnf := by
  refine ⟨fun cnf fits => ⟨?_, fun other read => ?_⟩, fun text cnf read => ?_⟩
  · rw [parse_print_eq_ok_iff fits]
    exact and_iff_right rfl
  · exact ((parse_print_eq_ok_iff fits).mp read).1
  · obtain ⟨fits, bounded⟩ := fits_and_bounded_of_parse read
    exact (parse_print_eq_ok_iff fits).mpr ⟨rfl, bounded⟩

/-- A formula with an empty clause and a literal at the end of its range can be
read again; one with a literal that is zero, or that has no variable, cannot. What
was read from a text with other spellings is written and read again. -/
theorem parse_print_round_trip_extremes :
    parse (print ⟨2147483648, [[], [1, -2147483648]]⟩) = .ok ⟨2147483648, [[], [1, -2147483648]]⟩ ∧
      parse (print ⟨2, [[1, 0], [3]]⟩) ≠ .ok ⟨2, [[1, 0], [3]]⟩ ∧
      parse "c\np cnf +2 1\n01 -2\n0" = .ok ⟨2, [[1, -2]]⟩ ∧
      parse (print ⟨2, [[1, -2]]⟩) = .ok ⟨2, [[1, -2]]⟩ := by
  refine ⟨?_, ?_, rfl, parse_print_round_trip.2 "c\np cnf +2 1\n01 -2\n0" _ rfl⟩
  · exact (parse_print_round_trip.1 _ ⟨by decide, by decide, by decide⟩).1.mpr
      (by rw [Cnf.Bounded]; decide)
  · rw [Ne, (parse_print_round_trip.1 _ ⟨by decide, by decide, by decide⟩).1, Cnf.Bounded]
    decide

end RoundTrip

end Dimacs

end Clausal
