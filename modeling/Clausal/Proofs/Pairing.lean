import Mathlib
import Clausal.Proofs.Ordering

/-!
# Pairs of half words

On natural numbers the pairing function is `Nat.pair`, which fills one square after the
other: the pairs of numbers below `side` have exactly the numbers below `side ^ 2`. On
words it is that number modulo `2 ^ 64`, and the square of `2 ^ 32` is the last one that
fits. So nothing wraps exactly for two half words, and the pairs of half words are
numbered by all words.

The key of an operator pairs its place in the list of operators with its attribute. Both
are half words, so the key determines the operator.
-/

namespace Clausal

namespace Pairing

variable {side : Nat} {a b : UInt64} {words : UInt64 × UInt64}

/-- A pair of numbers lies in a square exactly if its number is below the area. -/
theorem natPair_lt_sq_iff {m n : Nat} : Nat.pair m n < side ^ 2 ↔ m < side ∧ n < side := by
  rw [← max_lt_iff]
  constructor
  · intro below
    have corner := Nat.max_sq_add_min_le_pair m n
    exact lt_of_pow_lt_pow_left₀ 2 (Nat.zero_le side) (by omega)
  · intro inside
    exact (Nat.pair_lt_max_add_one_sq m n).trans_le (Nat.pow_le_pow_left inside 2)

/-- A half word is a word. -/
theorem toNat_halfWord {n : Nat} (small : n < 2 ^ 32) : n.toUInt64.toNat = n := by
  have fits : n < UInt64.size := small.trans (by norm_num [UInt64.size])
  rw [Nat.toUInt64_eq, UInt64.toNat_ofNat_of_lt' fits]

/-- Words are paired as numbers, modulo the number of words. -/
theorem toNat_pair_mod (a b : UInt64) : (pair a b).toNat = Nat.pair a.toNat b.toNat % 2 ^ 64 := by
  unfold pair Nat.pair
  by_cases smaller : a < b
  · rw [if_pos smaller, if_pos (UInt64.lt_iff_toNat_lt.mp smaller)]
    simp
  · rw [if_neg smaller, if_neg (mt UInt64.lt_iff_toNat_lt.mpr smaller)]
    simp

/-- Nothing wraps exactly for two half words. -/
theorem toNat_pair_iff :
    (pair a b).toNat = Nat.pair a.toNat b.toNat ↔ a.toNat < 2 ^ 32 ∧ b.toNat < 2 ^ 32 := by
  have area : (2 ^ 32) ^ 2 = 2 ^ 64 := by norm_num
  rw [← natPair_lt_sq_iff, area, toNat_pair_mod]
  constructor
  · intro same
    rw [← same]
    exact Nat.mod_lt _ (by positivity)
  · exact Nat.mod_eq_of_lt

section Squares

/-- The pairs of words below a bound. -/
def square (side : Nat) : Set (UInt64 × UInt64) :=
  {words | words.1.toNat < side ∧ words.2.toNat < side}

theorem toNat_pair_of_mem_square (small : side ≤ 2 ^ 32) (inside : words ∈ square side) :
    (pair words.1 words.2).toNat = Nat.pair words.1.toNat words.2.toNat :=
  toNat_pair_iff.mpr ⟨inside.1.trans_le small, inside.2.trans_le small⟩

theorem injOn_square (small : side ≤ 2 ^ 32) : Set.InjOn (Function.uncurry pair) (square side) := by
  intro left leftInside right rightInside same
  have numbers := congrArg UInt64.toNat same
  rw [Function.uncurry_def, toNat_pair_of_mem_square small leftInside,
    toNat_pair_of_mem_square small rightInside, Nat.pair_eq_pair] at numbers
  exact Prod.ext (UInt64.toNat_inj.mp numbers.1) (UInt64.toNat_inj.mp numbers.2)

/-- A word below the area of a square is the number of the pair that it unpairs to. -/
theorem surjOn_square (small : side ≤ 2 ^ 32) :
    Set.SurjOn (Function.uncurry pair) (square side) {word | word.toNat < side ^ 2} := by
  intro word below
  obtain ⟨left, right⟩ : word.toNat.unpair.1 < side ∧ word.toNat.unpair.2 < side := by
    rwa [← natPair_lt_sq_iff, Nat.pair_unpair]
  have first := toNat_halfWord (left.trans_le small)
  have second := toNat_halfWord (right.trans_le small)
  have inside : (word.toNat.unpair.1.toUInt64, word.toNat.unpair.2.toUInt64) ∈ square side :=
    ⟨first.trans_lt left, second.trans_lt right⟩
  refine ⟨_, inside, UInt64.toNat_inj.mp ?_⟩
  rw [Function.uncurry_def, toNat_pair_of_mem_square small inside, first, second, Nat.pair_unpair]

/-- The pairs of words below a bound are numbered by the words below its square. -/
theorem bijOn_square (small : side ≤ 2 ^ 32) :
    Set.BijOn (Function.uncurry pair) (square side) {word | word.toNat < side ^ 2} := by
  refine ⟨fun words inside => ?_, injOn_square small, surjOn_square small⟩
  exact (toNat_pair_of_mem_square small inside).trans_lt (natPair_lt_sq_iff.mpr inside)

end Squares

end Pairing

namespace Op

/-- Whether the attribute of an operator, if it has one, is a half word. -/
def Compact (op : Op) : Prop :=
  ∀ parameter ∈ op.parameter?, parameter < 2 ^ 32

variable {op : Op}

theorem tag_lt (op : Op) : op.tag < 2 ^ 32 := by
  cases op <;> simp [tag]

theorem Compact.parameter_lt (compact : op.Compact) : op.parameter?.getD 0 < 2 ^ 32 := by
  cases found : op.parameter? with
  | none => simp
  | some parameter => exact compact parameter found

/-- A key pairs two half words. -/
theorem Compact.mem_square (compact : op.Compact) :
    (op.tag.toUInt64, (op.parameter?.getD 0).toUInt64) ∈ Pairing.square (2 ^ 32) :=
  ⟨(Pairing.toNat_halfWord op.tag_lt).trans_lt op.tag_lt,
    (Pairing.toNat_halfWord compact.parameter_lt).trans_lt compact.parameter_lt⟩

/-- The key of an operator determines its place and its attribute, and these determine
the operator. -/
theorem key_injOn : Set.InjOn key {op | op.Compact} := by
  intro left leftCompact right rightCompact same
  have halves := Pairing.injOn_square le_rfl leftCompact.mem_square rightCompact.mem_square same
  have tags := congrArg UInt64.toNat (congrArg Prod.fst halves)
  have parameters := congrArg UInt64.toNat (congrArg Prod.snd halves)
  rw [Pairing.toNat_halfWord left.tag_lt, Pairing.toNat_halfWord right.tag_lt] at tags
  rw [Pairing.toNat_halfWord leftCompact.parameter_lt,
    Pairing.toNat_halfWord rightCompact.parameter_lt] at parameters
  apply eq_of_compare
  rw [compare, tags, parameters, Nat.compare_eq_eq.mpr rfl, Nat.compare_eq_eq.mpr rfl]
  rfl

end Op

namespace Pairing

/-- Nothing wraps exactly for two half words, the pairs of half words are numbered by all
words, and so different operators with half words for attributes have different keys. -/
theorem pair_bijects_words :
    (∀ a b : UInt64, (pair a b).toNat = Nat.pair a.toNat b.toNat ↔
      a.toNat < 2 ^ 32 ∧ b.toNat < 2 ^ 32) ∧
    Set.BijOn (fun words : UInt64 × UInt64 => pair words.1 words.2)
      {words | words.1.toNat < 2 ^ 32 ∧ words.2.toNat < 2 ^ 32} Set.univ ∧
    ∀ left right : Op, left.Compact → right.Compact → left ≠ right → left.key ≠ right.key := by
  refine ⟨fun a b => toNat_pair_iff, ?numbered, fun left right leftCompact rightCompact => ?keys⟩
  case numbered =>
    have all : {word : UInt64 | word.toNat < (2 ^ 32) ^ 2} = Set.univ :=
      Set.eq_univ_of_forall fun word => word.toNat_lt
    exact all ▸ bijOn_square le_rfl
  case keys => exact mt (Op.key_injOn leftCompact rightCompact)

/-- The last pair of half words has the last word as its number, and two operators with
the largest attributes have different keys. -/
theorem pair_bijects_words_last :
    pair 0xffffffff 0xffffffff = 0xffffffffffffffff ∧ (Op.bit 0xffffffff).Compact ∧
      (Op.bit 0xfffffffe).Compact ∧ (Op.bit 0xffffffff).key ≠ (Op.bit 0xfffffffe).key := by
  have compact : (Op.bit 0xffffffff).Compact ∧ (Op.bit 0xfffffffe).Compact := by
    simp [Op.Compact, Op.parameter?]
  obtain ⟨unwrapped, -, apart⟩ := pair_bijects_words
  refine ⟨UInt64.toNat_inj.mp ?_, compact.1, compact.2, apart _ _ compact.1 compact.2 (by decide)⟩
  rw [(unwrapped 0xffffffff 0xffffffff).mpr (by decide)]
  rfl

end Pairing

end Clausal
