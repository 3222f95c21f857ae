import Mathlib
import Clausal.Bits

/-!
# Values and rows of bits

The values that a type admits and the rows of bits of its size are in
one-to-one correspondence: `Ty.decode_encode` and `Ty.encode_decode` are the two
directions. The components of a tuple lie one after the other in its row, each
at the offset that `Ty.bitSizes` gives (`Ty.encodeAll_slice`).

`Ty.Sized` singles out the types whose words all have a positive width.
-/

namespace Clausal

/-- A number has at most `width` binary digits exactly when it is below the
power of two. -/
theorem bitLength_le_iff {number width : Nat} : bitLength number ≤ width ↔ number < 2 ^ width := by
  unfold bitLength
  split
  · rename_i zero
    simp [zero]
  · rename_i nonzero
    rw [Nat.add_one_le_iff, Nat.log2_lt nonzero]

/-- Truncation is reduction modulo a power of two. -/
theorem truncate_eq (width number : Nat) : truncate width number = number % 2 ^ width := by
  unfold truncate
  split
  · rename_i short
    exact (Nat.mod_eq_of_lt (bitLength_le_iff.mp short)).symm
  · rfl

@[simp] theorem numberOfBits_nil : numberOfBits [] = 0 := rfl

@[simp] theorem numberOfBits_cons (bit : Bool) (bits : List Bool) :
    numberOfBits (bit :: bits) = bit.toNat + 2 * numberOfBits bits := rfl

/-- A row of bits is a number below the power of two of its length. -/
theorem numberOfBits_lt (bits : List Bool) : numberOfBits bits < 2 ^ bits.length := by
  induction bits with
  | nil => simp
  | cons bit bits inductionHypothesis =>
    have small := bit.toNat_le
    rw [numberOfBits_cons, List.length_cons, pow_succ]
    omega

/-- The bits of a row are the binary digits of its number. -/
theorem testBit_numberOfBits (bits : List Bool) (index : Nat) :
    (numberOfBits bits).testBit index = bits.getD index false := by
  induction bits generalizing index with
  | nil => simp
  | cons bit bits inductionHypothesis =>
    cases index with
    | zero => cases bit <;> simp [Nat.testBit_zero, Nat.add_mod]
    | succ index =>
      rw [Nat.testBit_succ, numberOfBits_cons, List.getD_cons_succ, ← inductionHypothesis]
      congr 1
      have small := bit.toNat_lt
      omega

@[simp] theorem length_bitsOfNumber (width number : Nat) :
    (bitsOfNumber width number).length = width := by
  simp [bitsOfNumber]

/-- Rows of bits are read back from their numbers. -/
theorem bitsOfNumber_numberOfBits (bits : List Bool) :
    bitsOfNumber bits.length (numberOfBits bits) = bits := by
  apply List.ext_getElem
  · simp
  · intro index left right
    simp only [bitsOfNumber, List.getElem_map, List.getElem_range, testBit_numberOfBits]
    simp [List.getD_eq_getElem?_getD, right]

/-- The low digits of a number are that number modulo a power of two. -/
theorem numberOfBits_bitsOfNumber (width number : Nat) :
    numberOfBits (bitsOfNumber width number) = number % 2 ^ width := by
  apply Nat.eq_of_testBit_eq
  intro index
  rw [testBit_numberOfBits, Nat.testBit_mod_two_pow, List.getD_eq_getElem?_getD, bitsOfNumber,
    List.getElem?_map]
  by_cases inside : index < width <;> simp [inside]

namespace Ty

mutual

/-- Whether all words in a type have a positive width. -/
def Sized : Ty → Prop
  | .bool => True
  | .uint width => 0 < width
  | .tuple fields => SizedAll fields

/-- Whether all words in a field list have a positive width. -/
def SizedAll : List Ty → Prop
  | [] => True
  | field :: fields => Sized field ∧ SizedAll fields

end

theorem sizedAll_iff {fields : List Ty} : SizedAll fields ↔ ∀ field ∈ fields, field.Sized := by
  induction fields with
  | nil => simp [SizedAll]
  | cons field fields inductionHypothesis => simp [SizedAll, inductionHypothesis]

/-- A component list fits a field list position by position. -/
theorem admitsAll_iff {fields : List Ty} {values : List Value} :
    admitsAll fields values ↔ List.Forall₂ (fun field value => field.admits value) fields values := by
  induction fields generalizing values with
  | nil => cases values <;> simp [admitsAll]
  | cons field fields inductionHypothesis =>
    cases values with
    | nil => simp [admitsAll]
    | cons value values => simp [admitsAll, inductionHypothesis]

mutual

/-- The row of an admitted value has the size of the type. -/
theorem length_encode : (ty : Ty) → (value : Value) → ty.admits value →
    (ty.encode value).length = ty.bitSize
  | .bool, .bool _, _ => rfl
  | .uint _, .uint _, _ => length_bitsOfNumber _ _
  | .tuple fields, .tuple values, admitted => length_encodeAll fields values admitted
  | .bool, .uint _, admitted => nomatch admitted
  | .bool, .tuple _, admitted => nomatch admitted
  | .uint _, .bool _, admitted => nomatch admitted
  | .uint _, .tuple _, admitted => nomatch admitted
  | .tuple _, .bool _, admitted => nomatch admitted
  | .tuple _, .uint _, admitted => nomatch admitted

/-- The row of admitted components has the size of the fields. -/
theorem length_encodeAll : (fields : List Ty) → (values : List Value) →
    admitsAll fields values → (encodeAll fields values).length = bitSizes fields
  | [], [], _ => rfl
  | field :: fields, value :: values, admitted => by
    simp only [admitsAll, Bool.and_eq_true] at admitted
    simp only [encodeAll, bitSizes, List.length_append, length_encode field value admitted.1,
      length_encodeAll fields values admitted.2]
  | [], _ :: _, admitted => nomatch admitted
  | _ :: _, [], admitted => nomatch admitted

end

mutual

/-- An admitted value is read back from its row. -/
theorem decode_encode : (ty : Ty) → (value : Value) → ty.admits value →
    ty.decode (ty.encode value) = value
  | .bool, .bool _, _ => rfl
  | .uint width, .uint number, admitted => by
    have small : number < 2 ^ width := bitLength_le_iff.mp (by simpa [admits] using admitted)
    simp only [encode, decode]
    rw [List.take_of_length_le (by simp), numberOfBits_bitsOfNumber, Nat.mod_eq_of_lt small]
  | .tuple fields, .tuple values, admitted => by
    simp only [encode, decode, decodeAll_encodeAll fields values admitted]
  | .bool, .uint _, admitted => nomatch admitted
  | .bool, .tuple _, admitted => nomatch admitted
  | .uint _, .bool _, admitted => nomatch admitted
  | .uint _, .tuple _, admitted => nomatch admitted
  | .tuple _, .bool _, admitted => nomatch admitted
  | .tuple _, .uint _, admitted => nomatch admitted

/-- Admitted components are read back from their row. -/
theorem decodeAll_encodeAll : (fields : List Ty) → (values : List Value) →
    admitsAll fields values → decodeAll fields (encodeAll fields values) = values
  | [], [], _ => rfl
  | field :: fields, value :: values, admitted => by
    simp only [admitsAll, Bool.and_eq_true] at admitted
    have size := length_encode field value admitted.1
    simp only [encodeAll, decodeAll]
    rw [← size, List.take_left, List.drop_left, decode_encode field value admitted.1,
      decodeAll_encodeAll fields values admitted.2]
  | [], _ :: _, admitted => nomatch admitted
  | _ :: _, [], admitted => nomatch admitted

end

mutual

/-- A row of the type's size is the row of the value read from it. -/
theorem encode_decode : (ty : Ty) → (bits : List Bool) → bits.length = ty.bitSize →
    ty.encode (ty.decode bits) = bits
  | .bool, [bit], _ => rfl
  | .uint width, bits, size => by
    simp only [bitSize] at size
    simp only [decode, encode]
    rw [List.take_of_length_le size.le, ← size, bitsOfNumber_numberOfBits]
  | .tuple fields, bits, size => encodeAll_decodeAll fields bits size
  | .bool, [], size => by simp [bitSize] at size
  | .bool, _ :: _ :: _, size => by simp [bitSize] at size

/-- A row of the fields' size is the row of the components read from it. -/
theorem encodeAll_decodeAll : (fields : List Ty) → (bits : List Bool) →
    bits.length = bitSizes fields → encodeAll fields (decodeAll fields bits) = bits
  | [], bits, size => by
    simp only [bitSizes, List.length_eq_zero_iff] at size
    simp [encodeAll, size]
  | field :: fields, bits, size => by
    simp only [bitSizes] at size
    simp only [decodeAll, encodeAll]
    rw [encode_decode field _ (by simp; omega), encodeAll_decodeAll fields _ (by simp; omega),
      List.take_append_drop]

end

mutual

/-- The value read from a row is admitted. -/
theorem admits_decode : (ty : Ty) → (bits : List Bool) → ty.admits (ty.decode bits)
  | .bool, _ => rfl
  | .uint width, bits => by
    have small := numberOfBits_lt (bits.take width)
    have length : (bits.take width).length ≤ width := by simp
    simp only [decode, admits, decide_eq_true_eq, bitLength_le_iff]
    exact lt_of_lt_of_le small (Nat.pow_le_pow_right (by decide) length)
  | .tuple fields, bits => admitsAll_decodeAll fields bits

/-- The components read from a row are admitted. -/
theorem admitsAll_decodeAll : (fields : List Ty) → (bits : List Bool) →
    admitsAll fields (decodeAll fields bits)
  | [], _ => rfl
  | field :: fields, bits => by
    simp only [decodeAll, admitsAll, Bool.and_eq_true]
    exact ⟨admits_decode field _, admitsAll_decodeAll fields _⟩

end

/-- The bits of the fields in front of a field and of that field are among the bits of
all fields. -/
theorem bitSizes_take_add_le {fields : List Ty} {index : Nat} {field : Ty}
    (found : fields[index]? = some field) :
    bitSizes (fields.take index) + field.bitSize ≤ bitSizes fields := by
  induction index generalizing fields with
  | zero =>
    cases fields with
    | nil => cases found
    | cons first rest =>
      cases found
      simp [bitSizes]
  | succ index inductionHypothesis =>
    cases fields with
    | nil => cases found
    | cons first rest =>
      have below := inductionHypothesis (List.getElem?_cons_succ ▸ found)
      simp only [List.take_succ_cons, bitSizes]
      omega

theorem fieldOffset?_tuple {fields : List Ty} {index : Nat} {field : Ty}
    (found : fields[index]? = some field) :
    (Ty.tuple fields).fieldOffset? index = some (bitSizes (fields.take index)) := by
  obtain ⟨inside, -⟩ := List.getElem?_eq_some_iff.mp found
  exact if_pos inside

/-- The bits of one component lie at its offset in the row of a tuple. -/
theorem encodeAll_slice {fields : List Ty} {values : List Value} {index : Nat} {field : Ty}
    {value : Value} (admitted : admitsAll fields values) (fieldAt : fields[index]? = some field)
    (valueAt : values[index]? = some value) :
    ((encodeAll fields values).drop (bitSizes (fields.take index))).take field.bitSize =
      field.encode value := by
  induction index generalizing fields values with
  | zero =>
    cases fields with
    | nil => simp at fieldAt
    | cons first fields =>
      cases values with
      | nil => simp at valueAt
      | cons firstValue values =>
        simp only [List.getElem?_cons_zero, Option.some.injEq] at fieldAt valueAt
        subst fieldAt valueAt
        simp only [admitsAll, Bool.and_eq_true] at admitted
        simp only [List.take_zero, bitSizes, List.drop_zero, encodeAll]
        rw [← length_encode first firstValue admitted.1, List.take_left]
  | succ index inductionHypothesis =>
    cases fields with
    | nil => simp at fieldAt
    | cons first fields =>
      cases values with
      | nil => simp at valueAt
      | cons firstValue values =>
        simp only [List.getElem?_cons_succ] at fieldAt valueAt
        simp only [admitsAll, Bool.and_eq_true] at admitted
        simp only [List.take_succ_cons, bitSizes, encodeAll]
        rw [← length_encode first firstValue admitted.1, ← List.drop_drop, List.drop_left,
          inductionHypothesis admitted.2 fieldAt valueAt]

end Ty

end Clausal
