import Mathlib
import Clausal.Rules.Circuit
import Clausal.Proofs.BooleanRules

/-!
# Arithmetic circuits

The digits that the circuits compute, as functions on rows of bits:
`rippleSum` for a sum and `rowsSum` for a product. Their numbers are the sum and
the product modulo a power of two. The second half of the module shows that the
stored circuits compute these digits and bounds their ranks.
-/

namespace Clausal.Circuit

section Digits

/-- The digits of a sum of columns and a carry. The last carry is lost. -/
def rippleSum : Bool → List (Bool × Bool) → List Bool
  | _, [] => []
  | carry, (x, y) :: columns =>
    ((x != y) != carry) :: rippleSum (x && y || carry && (x != y)) columns

/-- The digits of a row plus the products of the digits `ys` with the row `xs`,
each shifted by one more column. The lowest column is final. -/
def rowsSum (xs : List Bool) : List Bool → List Bool → List Bool
  | column :: columns, y :: ys =>
    column :: rowsSum xs
      (rippleSum false (columns.zip ((xs.take columns.length).map (· && y)))) ys
  | columns, _ => columns

/-- A digit in front of a number that is cut off. -/
theorem digit_add_mod {digit : Nat} (small : digit < 2) (number exponent : Nat) :
    digit + 2 * (number % 2 ^ exponent) = (digit + 2 * number) % 2 ^ (exponent + 1) := by
  rw [pow_succ, Nat.mul_comm (2 ^ exponent) 2, Nat.mod_mul]
  have low : (digit + 2 * number) % 2 = digit := by omega
  have high : (digit + 2 * number) / 2 = number := by omega
  rw [low, high]

theorem length_rippleSum (carry : Bool) (columns : List (Bool × Bool)) :
    (rippleSum carry columns).length = columns.length := by
  induction columns generalizing carry with
  | nil => rfl
  | cons column columns inductionHypothesis => simp [rippleSum, inductionHypothesis]

/-- The digits of a sum are those of the sum of the numbers. -/
theorem numberOfBits_rippleSum (carry : Bool) (columns : List (Bool × Bool)) :
    numberOfBits (rippleSum carry columns) =
      (numberOfBits (columns.map Prod.fst) + numberOfBits (columns.map Prod.snd) + carry.toNat) %
        2 ^ columns.length := by
  induction columns generalizing carry with
  | nil => simp [rippleSum, Nat.mod_one]
  | cons column columns inductionHypothesis =>
    obtain ⟨x, y⟩ := column
    rw [rippleSum, numberOfBits_cons, inductionHypothesis, List.length_cons,
      digit_add_mod (Bool.toNat_lt _)]
    congr 1
    simp only [List.map_cons, numberOfBits_cons]
    cases x <;> cases y <;> cases carry <;> simp <;> omega

theorem numberOfBits_take (bits : List Bool) (count : Nat) :
    numberOfBits (bits.take count) = numberOfBits bits % 2 ^ count := by
  induction bits generalizing count with
  | nil => simp
  | cons bit bits inductionHypothesis =>
    cases count with
    | zero => simp [Nat.mod_one]
    | succ count =>
      rw [List.take_succ_cons, numberOfBits_cons, numberOfBits_cons, inductionHypothesis,
        digit_add_mod bit.toNat_lt]

theorem numberOfBits_map_and (bits : List Bool) (digit : Bool) :
    numberOfBits (bits.map (· && digit)) = numberOfBits bits * digit.toNat := by
  induction bits with
  | nil => simp
  | cons bit bits inductionHypothesis =>
    simp only [List.map_cons, numberOfBits_cons, inductionHypothesis]
    cases bit <;> cases digit <;> simp

/-- The digits of shifted products are those of the product of the numbers. -/
theorem numberOfBits_rowsSum (xs columns ys : List Bool) (long : columns.length ≤ xs.length + 1) :
    numberOfBits (rowsSum xs columns ys) =
      (numberOfBits columns + 2 * (numberOfBits xs * numberOfBits ys)) % 2 ^ columns.length := by
  induction ys generalizing columns with
  | nil =>
    have unchanged : rowsSum xs columns [] = columns := by cases columns <;> rfl
    simp [unchanged, Nat.mod_eq_of_lt (numberOfBits_lt columns)]
  | cons y ys inductionHypothesis =>
    cases columns with
    | nil => simp [rowsSum, Nat.mod_one]
    | cons column columns =>
      simp only [List.length_cons] at long
      set row := (xs.take columns.length).map (· && y)
      have rowLength : row.length = columns.length := by simp [row]; omega
      have zipLength : (columns.zip row).length = columns.length := by simp [rowLength]
      have rowNumber : numberOfBits row = numberOfBits xs % 2 ^ columns.length * y.toNat := by
        rw [numberOfBits_map_and, numberOfBits_take]
      have sumNumber : numberOfBits (rippleSum false (columns.zip row)) ≡
          numberOfBits columns + numberOfBits xs * y.toNat [MOD 2 ^ columns.length] := by
        rw [numberOfBits_rippleSum, zipLength, List.map_fst_zip (by omega),
          List.map_snd_zip (by omega), rowNumber, Bool.toNat_false, Nat.add_zero]
        exact (Nat.mod_modEq _ _).trans
          (((Nat.mod_modEq _ _).mul_right _).add_left _)
      rw [rowsSum, numberOfBits_cons, inductionHypothesis, length_rippleSum, zipLength]
      · rw [numberOfBits_cons, numberOfBits_cons, List.length_cons]
        have rest := sumNumber.add_right (2 * (numberOfBits xs * numberOfBits ys))
        rw [rest, digit_add_mod column.toNat_lt]
        congr 1
        ring
      · rw [length_rippleSum, zipLength]
        omega

end Digits

section Gates

variable {pool before after : Pool} {x y e : ExprId} {a b : Bool} {env : Env} {level : Nat}

/-- A boolean of bounded rank. -/
structure IsBit (pool : Pool) (level : Nat) (e : ExprId) : Prop where
  isBool : pool.HasTy e .bool
  rank_le : pool.rank e ≤ level

theorem IsBit.mono (extension : before.Extends after) (isBit : IsBit before level e) :
    IsBit after level e :=
  ⟨extension.hasTy isBit.isBool, by rw [extension.rank_eq isBit.isBool.has]; exact isBit.rank_le⟩

theorem IsBit.le {higher : Nat} (isBit : IsBit pool level e) (bound : level ≤ higher) :
    IsBit pool higher e :=
  ⟨isBit.isBool, isBit.rank_le.trans bound⟩

/-- Stored booleans keep their truth values when the pool grows. -/
theorem truths_iff (extension : before.Extends after) {row : List ExprId} {bits : List Bool}
    (stored : ∀ e ∈ row, before.Has e) :
    List.Forall₂ (after.Truth env) row bits ↔ List.Forall₂ (before.Truth env) row bits := by
  constructor
  · exact fun each => forall₂_imp_of_mem each fun e member _ holds =>
      (extension.evaluate_eq (stored e member)).symm.trans holds
  · exact fun each => forall₂_imp_of_mem each fun e member _ holds =>
      (extension.evaluate_eq (stored e member)).trans holds

/-- The operators that circuits are made of. -/
inductive Gate : Op → (Bool → Bool → Bool) → Prop where
  | xor : Gate .xor fun a b => a != b
  | and : Gate .and fun a b => a && b
  | or : Gate .or fun a b => a || b

variable {op : Op} {function : Bool → Bool → Bool} (gate : Gate op function)
include gate

/-- A gate is stored. -/
theorem gate_yields (left : IsBit pool level x) (right : IsBit pool level y) :
    Build.Yields (Build.apply op [x, y]) pool fun e after =>
      after.node? e = some ⟨.bool, .apply op [x, y]⟩ := by
  refine Build.apply_yields ⟨⟨[.bool, .bool], .cons left.isBool (.cons right.isBool .nil), ?_⟩, ?_⟩
  · cases gate with
    | xor => exact .xor
    | and => exact .and (by simp) (by simp)
    | or => exact .or (by simp) (by simp)
  · rintro rfl
    cases gate

theorem isBit_gate (stored : pool.node? e = some ⟨.bool, .apply op [x, y]⟩)
    (left : IsBit pool level x) (right : IsBit pool level y) : IsBit pool (level + 1) e := by
  refine ⟨⟨_, stored⟩, ?_⟩
  have peak : pool.peak [x, y] ≤ level := by
    simp [Pool.peak_le_iff, left.rank_le, right.rank_le]
  rw [Pool.rank_apply stored]
  cases gate <;> simp only [Op.rankCost] <;> omega

theorem truth_gate (stored : pool.node? e = some ⟨.bool, .apply op [x, y]⟩)
    (left : pool.Truth env x a) (right : pool.Truth env y b) :
    pool.Truth env e (function a b) := by
  refine (Pool.evaluate_apply stored).mpr
    ⟨[.bool a, .bool b], .cons left (.cons right .nil), ?_⟩
  cases gate <;> cases a <;> cases b <;> rfl

end Gates

section Rows

variable {pool : Pool} {level base : Nat}

/-- Both digits of every column are booleans of bounded rank. -/
def Columns (pool : Pool) (base : Nat) (columns : List (ExprId × ExprId)) : Prop :=
  ∀ column ∈ columns, IsBit pool base column.1 ∧ IsBit pool base column.2

theorem Columns.mono {before after : Pool} (extension : before.Extends after)
    {columns : List (ExprId × ExprId)} (bits : Columns before base columns) :
    Columns after base columns :=
  fun column member => ⟨(bits column member).1.mono extension, (bits column member).2.mono extension⟩

/-- The digits of columns. -/
def ColumnTruths (pool : Pool) (env : Env) (columns : List (ExprId × ExprId))
    (bits : List (Bool × Bool)) : Prop :=
  List.Forall₂ (fun column bit => pool.Truth env column.1 bit.1 ∧ pool.Truth env column.2 bit.2)
    columns bits

/-- The truth of a carry; no carry is false. -/
def CarryTruth (pool : Pool) (env : Env) (carry : Option ExprId) (truth : Bool) : Prop :=
  (∀ e ∈ carry, pool.Truth env e truth) ∧ (carry = none → truth = false)

theorem carryTruth_none {env : Env} : CarryTruth pool env none false :=
  ⟨by simp, fun _ => rfl⟩

/-- A row is the sum of columns and a carry. -/
structure IsSum (pool : Pool) (level : Nat) (carry : Option ExprId)
    (columns : List (ExprId × ExprId)) (sum : List ExprId) : Prop where
  isBit : ∀ e ∈ sum, IsBit pool (level + 2 * columns.length) e
  length_eq : sum.length = columns.length
  truths : ∀ ⦃env : Env⦄ ⦃carryTruth : Bool⦄ ⦃bits : List (Bool × Bool)⦄,
    CarryTruth pool env carry carryTruth → ColumnTruths pool env columns bits →
      List.Forall₂ (pool.Truth env) sum (rippleSum carryTruth bits)

theorem IsSum.nil (carry : Option ExprId) : IsSum pool level carry [] [] := by
  refine ⟨nofun, rfl, fun env carryTruth bits _ each => ?_⟩
  obtain rfl := List.forall₂_nil_left_iff.mp each
  exact .nil

/-- A sum without a carry stays one when the pool grows. -/
theorem IsSum.mono {before after : Pool} {columns : List (ExprId × ExprId)} {sum : List ExprId}
    (extension : before.Extends after) (columnBits : Columns before base columns)
    (isSum : IsSum before level none columns sum) : IsSum after level none columns sum := by
  refine ⟨fun e member => (isSum.isBit e member).mono extension, isSum.length_eq, ?_⟩
  intro env carryTruth bits carryOf bitsOf
  obtain rfl := carryOf.2 rfl
  refine (truths_iff extension fun e member => (isSum.isBit e member).isBool.has).mpr ?_
  refine isSum.truths carryTruth_none (forall₂_imp_of_mem bitsOf fun column member bit holds => ?_)
  obtain ⟨left, right⟩ := columnBits column member
  exact ⟨(extension.evaluate_eq left.isBool.has).symm.trans holds.1,
    (extension.evaluate_eq right.isBool.has).symm.trans holds.2⟩

/-- A digit in front of a sum with the next carry. -/
theorem IsSum.cons {carry : Option ExprId} {x y digit next : ExprId}
    {columns : List (ExprId × ExprId)} {sum : List ExprId} (digitBit : IsBit pool (level + 2) digit)
    (digitTruth : ∀ ⦃env : Env⦄ ⦃carryTruth a b : Bool⦄, CarryTruth pool env carry carryTruth →
      pool.Truth env x a → pool.Truth env y b → pool.Truth env digit ((a != b) != carryTruth))
    (nextTruth : columns ≠ [] → ∀ ⦃env : Env⦄ ⦃carryTruth a b : Bool⦄,
      CarryTruth pool env carry carryTruth → pool.Truth env x a → pool.Truth env y b →
        pool.Truth env next (a && b || carryTruth && (a != b)))
    (isSum : IsSum pool (level + 2) (some next) columns sum) :
    IsSum pool level carry ((x, y) :: columns) (digit :: sum) := by
  refine ⟨?_, by simp [isSum.length_eq], ?_⟩
  · intro e member
    rcases List.mem_cons.mp member with rfl | member
    · exact digitBit.le (by simp)
    · exact (isSum.isBit e member).le (by simp; omega)
  · intro env carryTruth bits carryHolds each
    obtain ⟨⟨a, b⟩, others, ⟨first, second⟩, rest, rfl⟩ := List.forall₂_cons_left_iff.mp each
    refine .cons (digitTruth carryHolds first second) ?_
    by_cases isLast : columns = []
    · subst isLast
      obtain rfl := List.forall₂_nil_left_iff.mp rest
      obtain rfl := List.length_eq_zero_iff.mp isSum.length_eq
      exact .nil
    · refine isSum.truths ⟨?_, nofun⟩ rest
      rintro _ ⟨⟩
      exact nextTruth isLast carryHolds first second

section Step

variable {x y : ExprId} {columns : List (ExprId × ExprId)} (low : base < level)
  (xBit : IsBit pool base x) (yBit : IsBit pool base y) (rest : Columns pool base columns)
  (tail : ∀ {pool : Pool} {level : Nat} {carry : ExprId}, base < level → IsBit pool level carry →
    Columns pool base columns → Build.Yields (ripple (some carry) columns) pool fun sum after =>
      IsSum after level (some carry) columns sum)
include low xBit yBit rest tail

/-- One column without a carry, and the columns behind it. -/
theorem ripple_none_yields :
    Build.Yields (ripple none ((x, y) :: columns)) pool fun sum after =>
      IsSum after level none ((x, y) :: columns) sum := by
  unfold ripple
  refine (gate_yields .xor xBit yBit).bind fun half first toHalf isHalf => ?_
  have halfBit : ∀ {after : Pool}, first.Extends after → IsBit after (level + 2) half := by
    intro after extension
    have upTo := toHalf.extension.trans extension
    have bit := isBit_gate .xor (extension isHalf) (xBit.mono upTo) (yBit.mono upTo)
    exact bit.le (by omega)
  have halfTruth : ∀ {after : Pool}, first.Extends after →
      ∀ ⦃env : Env⦄ ⦃carryTruth a b : Bool⦄, CarryTruth after env none carryTruth →
        after.Truth env x a → after.Truth env y b →
          after.Truth env half ((a != b) != carryTruth) := by
    intro after extension env carryTruth a b carryHolds aTruth bTruth
    rw [carryHolds.2 rfl, Bool.bne_false]
    exact truth_gate .xor (extension isHalf) aTruth bTruth
  by_cases isLast : columns = []
  · subst isLast
    rw [if_pos (by simp)]
    exact .pure (.cons (halfBit (.refl first)) (halfTruth (.refl first)) (by simp) (.nil (some half)))
  · rw [if_neg (by simpa using isLast)]
    refine (gate_yields .and (xBit.mono toHalf.extension) (yBit.mono toHalf.extension)).bind
      fun next second toNext isNext => ?_
    have upToNext := toHalf.extension.trans toNext.extension
    have nextLow := isBit_gate .and isNext (xBit.mono upToNext) (yBit.mono upToNext)
    have nextBit := nextLow.le (show base + 1 ≤ level + 2 by omega)
    refine (tail (by omega) nextBit (rest.mono upToNext)).bind fun sum third toSum isSum => ?_
    have fromHalf := toNext.extension.trans toSum.extension
    refine .pure (.cons (halfBit fromHalf) (halfTruth fromHalf) (fun _ => ?_) isSum)
    intro env carryTruth a b carryHolds aTruth bTruth
    rw [carryHolds.2 rfl, Bool.false_and, Bool.or_false]
    exact truth_gate .and (toSum.extension isNext) aTruth bTruth

/-- One column with a carry, and the columns behind it. -/
theorem ripple_some_yields {carry : ExprId} (carryBit : IsBit pool level carry) :
    Build.Yields (ripple (some carry) ((x, y) :: columns)) pool fun sum after =>
      IsSum after level (some carry) ((x, y) :: columns) sum := by
  unfold ripple
  refine (gate_yields .xor xBit yBit).bind fun half first toHalf isHalf => ?_
  have halfLow := isBit_gate .xor isHalf (xBit.mono toHalf.extension) (yBit.mono toHalf.extension)
  have halfBit := halfLow.le (Nat.succ_le_of_lt low)
  refine (gate_yields .xor halfBit (carryBit.mono toHalf.extension)).bind
    fun digit second toDigit isDigit => ?_
  have upToDigit := toHalf.extension.trans toDigit.extension
  have digitBit := isBit_gate .xor isDigit (halfBit.mono toDigit.extension) (carryBit.mono upToDigit)
  have digitTruth : ∀ {after : Pool}, second.Extends after →
      ∀ ⦃env : Env⦄ ⦃carryTruth a b : Bool⦄, CarryTruth after env (some carry) carryTruth →
        after.Truth env x a → after.Truth env y b →
          after.Truth env digit ((a != b) != carryTruth) := by
    intro after extension env carryTruth a b carryHolds aTruth bTruth
    refine truth_gate .xor (extension isDigit) ?_ (carryHolds.1 carry rfl)
    exact truth_gate .xor (extension (toDigit.extension isHalf)) aTruth bTruth
  by_cases isLast : columns = []
  · subst isLast
    rw [if_pos (by simp)]
    exact .pure (.cons (digitBit.le (by omega)) (digitTruth (.refl second)) (by simp)
      (.nil (some half)))
  · rw [if_neg (by simpa using isLast)]
    refine (gate_yields .and (xBit.mono upToDigit) (yBit.mono upToDigit)).bind
      fun generated third toGenerated isGenerated => ?_
    have upToGenerated := upToDigit.trans toGenerated.extension
    have generatedBit :=
      isBit_gate .and isGenerated (xBit.mono upToGenerated) (yBit.mono upToGenerated)
    refine (gate_yields .and (carryBit.mono upToGenerated)
      (halfBit.mono (toDigit.extension.trans toGenerated.extension))).bind
      fun propagated fourth toPropagated isPropagated => ?_
    have upToPropagated := upToGenerated.trans toPropagated.extension
    have fromHalf := toDigit.extension.trans (toGenerated.extension.trans toPropagated.extension)
    have propagatedBit :=
      isBit_gate .and isPropagated (carryBit.mono upToPropagated) (halfBit.mono fromHalf)
    have generatedHigh := (generatedBit.mono toPropagated.extension).le (show base + 1 ≤ level + 1 by omega)
    refine (gate_yields .or generatedHigh propagatedBit).bind fun next fifth toNext isNext => ?_
    have nextBit := isBit_gate .or isNext (generatedHigh.mono toNext.extension)
      (propagatedBit.mono toNext.extension)
    have upToNext := upToPropagated.trans toNext.extension
    refine (tail (by omega) nextBit (rest.mono upToNext)).bind fun sum sixth toSum isSum => ?_
    have fromDigit := toGenerated.extension.trans
      (toPropagated.extension.trans (toNext.extension.trans toSum.extension))
    refine .pure (.cons (digitBit.mono fromDigit |>.le (by omega)) (digitTruth fromDigit)
      (fun _ => ?_) isSum)
    intro env carryTruth a b carryHolds aTruth bTruth
    have fromPropagated := toNext.extension.trans toSum.extension
    have halfTruth := truth_gate .xor (fromDigit (toDigit.extension isHalf)) aTruth bTruth
    refine truth_gate .or (toSum.extension isNext) ?_ ?_
    · exact truth_gate .and ((toPropagated.extension.trans fromPropagated) isGenerated) aTruth bTruth
    · exact truth_gate .and (fromPropagated isPropagated) (carryHolds.1 carry rfl) halfTruth

end Step

/-- The sum of columns is stored. -/
theorem ripple_yields {carry : Option ExprId} {columns : List (ExprId × ExprId)}
    (low : base < level) (carryBit : ∀ e ∈ carry, IsBit pool level e)
    (columnBits : Columns pool base columns) :
    Build.Yields (ripple carry columns) pool fun sum after =>
      IsSum after level carry columns sum := by
  induction columns generalizing carry pool level with
  | nil =>
    unfold ripple
    exact .pure (.nil carry)
  | cons column columns inductionHypothesis =>
    obtain ⟨xBit, yBit⟩ := columnBits column List.mem_cons_self
    have rest : Columns pool base columns := fun other member =>
      columnBits other (List.mem_cons_of_mem _ member)
    have tail : ∀ {pool : Pool} {level : Nat} {carry : ExprId}, base < level →
        IsBit pool level carry → Columns pool base columns →
          Build.Yields (ripple (some carry) columns) pool fun sum after =>
            IsSum after level (some carry) columns sum := by
      intro pool level carry low isBit bits
      exact inductionHypothesis low (by simpa using isBit) bits
    cases carry with
    | none => exact ripple_none_yields low xBit yBit rest tail
    | some carry => exact ripple_some_yields low xBit yBit rest tail (carryBit carry rfl)

/-- The sum of two rows of one length is stored. -/
theorem sum_yields {xs ys : List ExprId} (low : base < level) (sameLength : xs.length = ys.length)
    (columnBits : Columns pool base (xs.zip ys)) :
    Build.Yields (sum xs ys) pool fun total after => IsSum after level none (xs.zip ys) total := by
  rw [sum, if_pos sameLength]
  exact ripple_yields low (fun _ none => by cases none) columnBits

end Rows

section Words

variable {pool : Pool} {a b : ExprId} {width left right bound : Nat}

/-- A row has the low digits of a word. -/
structure IsLow (pool : Pool) (bound width : Nat) (a : ExprId) (actual : Nat) (row : List ExprId) :
    Prop where
  isBit : ∀ e ∈ row, IsBit pool (bound + 1) e
  length_eq : row.length = width
  truths : ∀ ⦃env : Env⦄ ⦃number : Nat⦄, pool.evaluate a env = .ok (.uint number) →
    number < 2 ^ actual → List.Forall₂ (pool.Truth env) row (bitsOfNumber width number)

theorem IsLow.mono {before after : Pool} {actual : Nat} {row : List ExprId}
    (extension : before.Extends after) (stored : before.Has a)
    (isLow : IsLow before bound width a actual row) : IsLow after bound width a actual row := by
  refine ⟨fun e member => (isLow.isBit e member).mono extension, isLow.length_eq, ?_⟩
  intro env number evaluated small
  rw [extension.evaluate_eq stored] at evaluated
  refine forall₂_imp_of_mem (isLow.truths evaluated small) fun e member truth holds => ?_
  exact (extension.evaluate_eq (isLow.isBit e member).isBool.has).trans holds

/-- A digit of a word, or `false` behind the end of it. -/
theorem digit_yields {actual : Nat} (isWord : pool.HasTy a (.uint actual))
    (low : pool.rank a ≤ bound) (index : Nat) :
    Build.Yields (if index < actual then Build.bit index a else Build.truth false) pool
      fun e after => IsBit after (bound + 1) e ∧ ∀ ⦃env : Env⦄ ⦃number : Nat⦄,
        after.evaluate a env = .ok (.uint number) → number < 2 ^ actual →
          after.Truth env e (number.testBit index) := by
  split_ifs with inside
  · refine (Build.apply_yields ⟨⟨[.uint actual], .cons isWord .nil, .bit inside⟩, nofun⟩).mono ?_
    intro e after advances stored
    refine ⟨⟨⟨_, stored⟩, ?_⟩, fun env number evaluated _ => ?_⟩
    · have peak : after.peak [a] ≤ bound := by
        simpa [Pool.peak_le_iff, advances.extension.rank_eq isWord.has] using low
      rw [Pool.rank_apply stored]
      simp only [Op.rankCost]
      omega
    · exact (Pool.evaluate_apply stored).mpr ⟨[.uint number], .cons evaluated .nil, rfl⟩
  · refine (Build.truth_yields false).mono fun e after _ stored => ?_
    refine ⟨⟨⟨_, stored⟩, ?_⟩, fun env number _ small => ?_⟩
    · rw [Pool.rank_eq_one stored rfl]
      omega
    · have high : number < 2 ^ index :=
        small.trans_le (Nat.pow_le_pow_right (by decide) (not_lt.mp inside))
      rw [Nat.testBit_lt_two_pow high]
      exact Pool.evaluate_const stored

/-- The low digits of a word are stored. -/
theorem lowBits_yields {actual : Nat} (isWord : pool.HasTy a (.uint actual))
    (low : pool.rank a ≤ bound) :
    Build.Yields (lowBits width a) pool fun row after => IsLow after bound width a actual row := by
  unfold lowBits
  refine Build.tyOf_yields isWord ?_
  simp only [Ty.width?, Option.getD_some, Build.collect_eq]
  refine (Stateful.Yields.mapM (fun index e after => after.Has a ∧ IsBit after (bound + 1) e ∧
    ∀ ⦃env : Env⦄ ⦃number : Nat⦄, after.evaluate a env = .ok (.uint number) → number < 2 ^ actual →
      after.Truth env e (number.testBit index)) ?stable ?each).mono ?combine
  case stable =>
    rintro index e before after advances ⟨stored, isBit, truth⟩
    refine ⟨advances.extension.has stored, isBit.mono advances.extension, ?_⟩
    intro env number evaluated small
    rw [advances.extension.evaluate_eq stored] at evaluated
    exact (advances.extension.evaluate_eq isBit.isBool.has).trans (truth evaluated small)
  case each =>
    intro index _ after advances
    have laterWord := advances.extension.hasTy isWord
    have laterLow : after.rank a ≤ bound := by rwa [advances.extension.rank_eq isWord.has]
    refine (digit_yields laterWord laterLow index).mono fun e final later done => ?_
    exact ⟨later.extension.has laterWord.has, done⟩
  case combine =>
    intro row after _ each
    refine ⟨fun e member => ?_, by simpa using each.length_eq.symm, ?_⟩
    · obtain ⟨index, -, -, isBit, -⟩ := exists_of_forall₂_of_mem each.flip member
      exact isBit
    · intro env number evaluated small
      refine List.forall₂_map_right_iff.mpr (each.flip.imp fun e index found => ?_)
      exact found.2.2 evaluated small

/-- A row is a row of digits times one digit. -/
structure IsProduct (pool : Pool) (level : Nat) (xs : List ExprId) (y : ExprId)
    (row : List ExprId) : Prop where
  isBit : ∀ e ∈ row, IsBit pool (level + 1) e
  length_eq : row.length = xs.length
  truths : ∀ ⦃env : Env⦄ ⦃bits : List Bool⦄ ⦃digit : Bool⦄,
    List.Forall₂ (pool.Truth env) xs bits → pool.Truth env y digit →
      List.Forall₂ (pool.Truth env) row (bits.map (· && digit))

theorem IsProduct.mono {before after : Pool} {level : Nat} {xs row : List ExprId} {y : ExprId}
    (extension : before.Extends after) (xsStored : ∀ x ∈ xs, before.Has x) (yStored : before.Has y)
    (isProduct : IsProduct before level xs y row) : IsProduct after level xs y row := by
  refine ⟨fun e member => (isProduct.isBit e member).mono extension, isProduct.length_eq, ?_⟩
  intro env bits digit bitsOf digitOf
  refine (truths_iff extension fun e member => (isProduct.isBit e member).isBool.has).mpr ?_
  exact isProduct.truths ((truths_iff extension xsStored).mp bitsOf)
    ((extension.evaluate_eq yStored).symm.trans digitOf)

/-- The product of the lowest digits of a row with a digit is stored. -/
theorem partialProduct_yields {xs ys : List ExprId} {y : ExprId} {digit count level : Nat}
    (found : ys[digit]? = some y) (enough : count ≤ xs.length)
    (xBits : ∀ x ∈ xs, IsBit pool level x) (yBit : IsBit pool level y) :
    Build.Yields (partialProduct xs ys digit count) pool fun row after =>
      IsProduct after level (xs.take count) y row := by
  unfold partialProduct
  rw [Build.collect_eq]
  refine (Stateful.Yields.mapM (fun index e after => ∃ x, xs[index]? = some x ∧
    after.node? e = some ⟨.bool, .apply .and [x, y]⟩) ?stable ?each).mono ?combine
  case stable =>
    rintro index e before after advances ⟨x, isDigit, stored⟩
    exact ⟨x, isDigit, advances.extension stored⟩
  case each =>
    intro index inside after advances
    have small := (List.mem_range.mp inside).trans_le enough
    have isDigit : xs[index]? = some xs[index] := List.getElem?_eq_getElem small
    refine .ofExcept (entry_eq_ok_iff.mpr isDigit) (.ofExcept (entry_eq_ok_iff.mpr found) ?_)
    refine (gate_yields .and ((xBits _ (List.getElem_mem small)).mono advances.extension)
      (yBit.mono advances.extension)).mono fun e final _ stored => ⟨_, isDigit, stored⟩
  case combine =>
    intro row after advances products
    have each : List.Forall₂ (fun x e => after.node? e = some ⟨.bool, .apply .and [x, y]⟩)
        (xs.take count) row := by
      refine forall₂_join (forall₂_range_take enough) products fun index _ x e isDigit product => ?_
      obtain ⟨other, isOther, stored⟩ := product
      obtain rfl := Option.some.inj (isDigit.symm.trans isOther)
      exact stored
    refine ⟨fun e member => ?_, each.length_eq.symm, fun env bits digit bitsOf digitOf => ?_⟩
    · obtain ⟨x, xMember, stored⟩ := exists_of_forall₂_of_mem each.flip member
      exact isBit_gate .and stored ((xBits x (List.mem_of_mem_take xMember)).mono advances.extension)
        (yBit.mono advances.extension)
    · rw [List.forall₂_map_right_iff]
      exact forall₂_join each bitsOf fun x _ e bit stored holds =>
        truth_gate .and stored holds digitOf

/-- A row is the sum of a row and of shifted products. -/
structure IsRowsSum (pool : Pool) (level : Nat) (xs columns ys row : List ExprId) : Prop where
  isBit : ∀ e ∈ row, IsBit pool (level + ys.length * (2 * columns.length + 1)) e
  length_eq : row.length = columns.length
  truths : ∀ ⦃env : Env⦄ ⦃xBits columnBits yBits : List Bool⦄,
    List.Forall₂ (pool.Truth env) xs xBits → List.Forall₂ (pool.Truth env) columns columnBits →
      List.Forall₂ (pool.Truth env) ys yBits →
        List.Forall₂ (pool.Truth env) row (rowsSum xBits columnBits yBits)

theorem rowsSum_nil (xs columns : List Bool) : rowsSum xs columns [] = columns := by
  cases columns <;> rfl

theorem forall₂_zip {related : ExprId → Bool → Prop} {xs ys : List ExprId} {xBits yBits : List Bool}
    (first : List.Forall₂ related xs xBits) (second : List.Forall₂ related ys yBits) :
    List.Forall₂ (fun column bit => related column.1 bit.1 ∧ related column.2 bit.2) (xs.zip ys)
      (xBits.zip yBits) := by
  induction first generalizing ys yBits with
  | nil => exact .nil
  | cons holds _ inductionHypothesis =>
    cases second with
    | nil => exact .nil
    | cons otherHolds rest => exact .cons ⟨holds, otherHolds⟩ (inductionHypothesis rest)

/-- The lowest column stays, the others are added to a product, and the further products
are added to the sum. -/
theorem IsRowsSum.cons {xs columns ys row sum rest : List ExprId} {column y : ExprId} {base level : Nat}
    (columnBit : IsBit pool level column) (isRow : IsProduct pool base (xs.take columns.length) y row)
    (rowLength : row.length = columns.length) (isSum : IsSum pool (level + 1) none (columns.zip row) sum)
    (isRest : IsRowsSum pool (level + 1 + 2 * columns.length) xs sum ys rest) :
    IsRowsSum pool level xs (column :: columns) (y :: ys) (column :: rest) := by
  have sumLength : sum.length = columns.length := by simp [isSum.length_eq, rowLength]
  refine ⟨?_, by simp [isRest.length_eq, sumLength], ?_⟩
  · intro e member
    rcases List.mem_cons.mp member with rfl | member
    · exact columnBit.le (Nat.le_add_right _ _)
    · refine (isRest.isBit e member).le ?_
      rw [sumLength, List.length_cons, List.length_cons]
      nlinarith
  · intro env xTruths truths yTruths xsHold columnsHold ysHold
    obtain ⟨columnTruth, otherTruths, columnHolds, othersHold, rfl⟩ :=
      List.forall₂_cons_left_iff.mp columnsHold
    obtain ⟨digit, otherDigits, digitHolds, digitsHold, rfl⟩ := List.forall₂_cons_left_iff.mp ysHold
    have rowHolds := isRow.truths (List.forall₂_take columns.length xsHold) digitHolds
    rw [othersHold.length_eq] at rowHolds
    rw [rowsSum]
    refine .cons columnHolds (isRest.truths xsHold ?_ digitsHold)
    exact isSum.truths carryTruth_none (forall₂_zip othersHold rowHolds)

/-- The shifted products are added. There are as many columns that are not final as digits
that are left. -/
theorem addRows_yields {xs columns ys : List ExprId} {base level count digit : Nat}
    (low : base < level) (xBits : ∀ x ∈ xs, IsBit pool base x)
    (columnBits : ∀ e ∈ columns, IsBit pool level e) (yBits : ∀ y ∈ ys, IsBit pool base y)
    (digits : digit + count = ys.length) (columnCount : columns.length = count + 1)
    (enough : count ≤ xs.length) :
    Build.Yields (addRows xs ys count digit columns) pool fun row after =>
      IsRowsSum after level xs columns (ys.drop digit) row := by
  induction count generalizing columns pool level digit with
  | zero =>
    have none : ys.drop digit = [] := List.drop_eq_nil_of_le (by omega)
    unfold addRows
    refine .pure ⟨by simpa [none] using columnBits, rfl, ?_⟩
    intro env xTruths truths yTruths _ holds noDigits
    rw [none] at noDigits
    obtain rfl := List.forall₂_nil_left_iff.mp noDigits
    rwa [rowsSum_nil]
  | succ count inductionHypothesis =>
    obtain ⟨column, columns, rfl⟩ := List.exists_cons_of_length_eq_add_one columnCount
    have columnCount : columns.length = count + 1 := by simpa using columnCount
    have columnBit := columnBits column List.mem_cons_self
    have inside : digit < ys.length := by omega
    have found : ys[digit]? = some ys[digit] := List.getElem?_eq_getElem inside
    have yBit := yBits ys[digit] (List.getElem_mem inside)
    rw [List.drop_eq_getElem_cons inside]
    unfold addRows
    refine (partialProduct_yields found enough xBits yBit).bind fun row first toRow isRow => ?_
    have rowLength : row.length = columns.length := by simp [isRow.length_eq]; omega
    have zipLength : (columns.zip row).length = columns.length := by simp [rowLength]
    have zipBits : Columns first level (columns.zip row) := by
      rintro ⟨e, f⟩ member
      obtain ⟨inColumns, inRow⟩ := List.of_mem_zip member
      exact ⟨(columnBits e (List.mem_cons_of_mem column inColumns)).mono toRow.extension,
        (isRow.isBit f inRow).le low⟩
    refine (sum_yields (Nat.lt_succ_self level) rowLength.symm zipBits).bind
      fun total second toSum isSum => ?_
    have upToSum := toRow.extension.trans toSum.extension
    have sumLength : total.length = columns.length := by rw [isSum.length_eq, zipLength]
    have restYields : Build.Yields (addRows xs ys count (digit + 1) total) second fun rest after =>
        IsRowsSum after (level + 1 + 2 * columns.length) xs total (ys.drop (digit + 1)) rest := by
      refine inductionHypothesis (by omega) (fun x member => (xBits x member).mono upToSum) ?_
        (fun other member => (yBits other member).mono upToSum) (by omega) (by omega) (by omega)
      rw [← zipLength]
      exact isSum.isBit
    refine restYields.bind fun rest third toRest isRest => .pure ?_
    have fromRow := toSum.extension.trans toRest.extension
    have stored : ∀ x ∈ xs.take (count + 1), first.Has x := fun x member =>
      toRow.extension.has (xBits x (List.mem_of_mem_take member)).isBool.has
    have isRow := isRow.mono fromRow stored (toRow.extension.has yBit.isBool.has)
    rw [← columnCount] at isRow
    exact .cons (columnBit.mono (toRow.extension.trans fromRow)) isRow rowLength
      (isSum.mono toRest.extension (zipBits.mono toSum.extension)) isRest

/-- A word is assembled from digits below it, and its number is a function of the
numbers of two words. -/
structure IsCircuit (pool : Pool) (level width : Nat) (a b : ExprId) (left right : Nat)
    (operation : Nat → Nat → Nat) (e : ExprId) : Prop where
  exists_digits : ∃ digits, pool.node? e = some ⟨.uint width, .apply .bits digits⟩ ∧
    ∀ digit ∈ digits, IsBit pool level digit
  means : ∀ ⦃env : Env⦄ ⦃x y : Nat⦄, pool.evaluate a env = .ok (.uint x) → x < 2 ^ left →
    pool.evaluate b env = .ok (.uint y) → y < 2 ^ right →
      pool.evaluate e env = .ok (.uint (operation x y))

/-- A row of digits is assembled to a word. -/
theorem bits_yields {digits : List ExprId} {level : Nat} {operation : Nat → Nat → Nat}
    (aStored : pool.Has a) (bStored : pool.Has b) (positive : 0 < width)
    (isBit : ∀ digit ∈ digits, IsBit pool level digit) (length_eq : digits.length = width)
    (truths : ∀ ⦃env : Env⦄ ⦃x y : Nat⦄, pool.evaluate a env = .ok (.uint x) → x < 2 ^ left →
      pool.evaluate b env = .ok (.uint y) → y < 2 ^ right →
        ∃ bits, List.Forall₂ (pool.Truth env) digits bits ∧ numberOfBits bits = operation x y) :
    Build.Yields (Build.bits digits) pool fun e after =>
      IsCircuit after level width a b left right operation e := by
  have nonempty : digits ≠ [] := List.length_pos_iff.mp (length_eq ▸ positive)
  have applies := Pool.applies_bits nonempty fun digit member => (isBit digit member).isBool
  rw [length_eq] at applies
  refine (Build.apply_yields applies).mono fun e after advances stored => ?_
  have extension := advances.extension
  refine ⟨⟨digits, stored, fun digit member => (isBit digit member).mono extension⟩, ?_⟩
  intro env x y first small second otherSmall
  rw [extension.evaluate_eq aStored] at first
  rw [extension.evaluate_eq bStored] at second
  obtain ⟨bits, each, number⟩ := truths first small second otherSmall
  refine (Pool.evaluate_apply stored).mpr ⟨bits.map .bool, ?_, by rw [Op.eval_bits, number]⟩
  rw [List.forall₂_map_right_iff]
  exact (truths_iff extension fun digit member => (isBit digit member).isBool.has).mpr each

section Arithmetic

variable (leftWord : pool.HasTy a (.uint left)) (rightWord : pool.HasTy b (.uint right))
  (leftLow : pool.rank a ≤ bound) (rightLow : pool.rank b ≤ bound) (positive : 0 < width)
include leftWord rightWord leftLow rightLow positive

/-- The sum of two words is stored. -/
theorem add_yields :
    Build.Yields (add width a b) pool fun e after =>
      IsCircuit after (bound + 2 + 2 * width) width a b left right
        (fun x y => (x + y) % 2 ^ width) e := by
  unfold add
  refine (lowBits_yields leftWord leftLow).bind fun xs first toXs isLeft => ?_
  have rightLater : first.rank b ≤ bound := by rwa [toXs.extension.rank_eq rightWord.has]
  refine (lowBits_yields (toXs.extension.hasTy rightWord) rightLater).bind
    fun ys second toYs isRight => ?_
  have isLeft := isLeft.mono toYs.extension (toXs.extension.has leftWord.has)
  have zipLength : (xs.zip ys).length = width := by
    simp [isLeft.length_eq, isRight.length_eq]
  have columns : Columns second (bound + 1) (xs.zip ys) := by
    rintro ⟨x, y⟩ member
    obtain ⟨inXs, inYs⟩ := List.of_mem_zip member
    exact ⟨isLeft.isBit x inXs, isRight.isBit y inYs⟩
  refine (sum_yields (Nat.lt_succ_self _) (by rw [isLeft.length_eq, isRight.length_eq]) columns).bind
    fun total third toSum isSum => ?_
  have upToSum := toXs.extension.trans (toYs.extension.trans toSum.extension)
  have upToYs := toXs.extension.trans toYs.extension
  refine bits_yields (upToSum.has leftWord.has) (upToSum.has rightWord.has) positive ?_ ?_ ?_
  · rw [← zipLength]
    exact isSum.isBit
  · rw [isSum.length_eq, zipLength]
  · intro env x y xValue xSmall yValue ySmall
    have xsHold := (isLeft.mono toSum.extension (upToYs.has leftWord.has)).truths xValue xSmall
    have ysHold := (isRight.mono toSum.extension (upToYs.has rightWord.has)).truths yValue ySmall
    refine ⟨_, isSum.truths carryTruth_none (forall₂_zip xsHold ysHold), ?_⟩
    have sameLength : (bitsOfNumber width x).length = (bitsOfNumber width y).length := by simp
    rw [numberOfBits_rippleSum, List.map_fst_zip sameLength.le, List.map_snd_zip sameLength.ge,
      numberOfBits_bitsOfNumber, numberOfBits_bitsOfNumber, Bool.toNat_false, Nat.add_zero,
      List.length_zip, length_bitsOfNumber, length_bitsOfNumber, min_self, ← Nat.add_mod]

/-- The product of two words is stored. -/
theorem mul_yields :
    Build.Yields (mul width a b) pool fun e after =>
      IsCircuit after (bound + 2 + width * (2 * width + 1)) width a b left right
        (fun x y => x * y % 2 ^ width) e := by
  unfold mul
  refine (lowBits_yields leftWord leftLow).bind fun xs first toXs isLeft => ?_
  have rightLater : first.rank b ≤ bound := by rwa [toXs.extension.rank_eq rightWord.has]
  refine (lowBits_yields (toXs.extension.hasTy rightWord) rightLater).bind
    fun ys second toYs isRight => ?_
  have isLeft := isLeft.mono toYs.extension (toXs.extension.has leftWord.has)
  have upToYs := toXs.extension.trans toYs.extension
  cases ys with
  | nil => exact absurd isRight.length_eq positive.ne
  | cons y ys =>
    have digits := isRight.length_eq
    rw [List.length_cons] at digits
    have rowYields : Build.Yields (partialProduct xs (y :: ys) 0 xs.length) second fun row after =>
        IsProduct after (bound + 1) xs y row := by
      have taken := partialProduct_yields (List.getElem?_cons_zero : (y :: ys)[0]? = some y) le_rfl
        isLeft.isBit (isRight.isBit y List.mem_cons_self)
      rwa [List.take_length] at taken
    refine rowYields.bind fun row third toRow isRow => ?_
    have rowsYields : Build.Yields (addRows xs (y :: ys) (width - 1) 1 row) third fun product after =>
        IsRowsSum after (bound + 2) xs row ys product :=
      addRows_yields (Nat.lt_succ_self _)
        (fun x member => (isLeft.isBit x member).mono toRow.extension) isRow.isBit
        (fun other member => (isRight.isBit other member).mono toRow.extension)
        (by rw [List.length_cons]; omega) (by rw [isRow.length_eq, isLeft.length_eq]; omega)
        (by rw [isLeft.length_eq]; omega)
    refine rowsYields.bind fun product fourth toProduct isProduct => ?_
    have fromYs := toRow.extension.trans toProduct.extension
    have upToProduct := upToYs.trans fromYs
    have rowLength : row.length = width := by rw [isRow.length_eq, isLeft.length_eq]
    refine bits_yields (upToProduct.has leftWord.has) (upToProduct.has rightWord.has) positive ?_ ?_ ?_
    · intro digit member
      refine (isProduct.isBit digit member).le ?_
      rw [rowLength]
      have fewer : ys.length ≤ width := by omega
      exact Nat.add_le_add_left (Nat.mul_le_mul_right _ fewer) _
    · rw [isProduct.length_eq, rowLength]
    · intro env x z xValue xSmall zValue zSmall
      have xsHold := (isLeft.mono fromYs (upToYs.has leftWord.has)).truths xValue xSmall
      have ysHold := (isRight.mono fromYs (upToYs.has rightWord.has)).truths zValue zSmall
      have zNumber := numberOfBits_bitsOfNumber width z
      obtain ⟨digit, otherDigits, digitHolds, digitsHold, split⟩ :=
        List.forall₂_cons_left_iff.mp ysHold
      rw [split, numberOfBits_cons] at zNumber
      have xsStored : ∀ e ∈ xs, third.Has e := fun e member =>
        toRow.extension.has (isLeft.isBit e member).isBool.has
      have yStored := toRow.extension.has (isRight.isBit y List.mem_cons_self).isBool.has
      have rowHolds := (isRow.mono toProduct.extension xsStored yStored).truths xsHold digitHolds
      refine ⟨_, isProduct.truths xsHold rowHolds digitsHold, ?_⟩
      rw [numberOfBits_rowsSum _ _ _ (by simp), numberOfBits_map_and, List.length_map,
        length_bitsOfNumber, numberOfBits_bitsOfNumber]
      calc (x % 2 ^ width * digit.toNat + 2 * (x % 2 ^ width * numberOfBits otherDigits)) % 2 ^ width
          = x % 2 ^ width * (digit.toNat + 2 * numberOfBits otherDigits) % 2 ^ width := by ring_nf
        _ = x * z % 2 ^ width := by rw [zNumber, ← Nat.mul_mod]

end Arithmetic

end Words

end Clausal.Circuit
