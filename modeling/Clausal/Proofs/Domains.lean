import Mathlib
import Clausal.Proofs.Codec

/-!
# The values of a type

The values that a type admits, the rows of bits of its size and the numbers below its
cardinality are in one-to-one correspondence, whatever tuples are nested in the type.
`Ty.code` numbers the values; `Ty.valueAt` is its inverse, so `Ty.values` lists each
value once. The checked conversions `Ty.toBits` and `Ty.ofBits` succeed exactly on
these values and rows, and the row of a tuple has the rows of its components at the
offsets of `Ty.fieldOffset?`.
-/

namespace Clausal.Ty

variable {ty field : Ty} {fields : List Ty} {value component : Value} {components : List Value}
  {bits : List Bool} {index number : Nat}

section Conversions

/-- A value has a row exactly if it belongs to the type. -/
theorem toBits_eq_ok_iff : ty.toBits value = .ok bits ↔ ty.admits value ∧ ty.encode value = bits := by
  unfold toBits
  split <;> simp_all

/-- A row is that of a value exactly if it has the size of the type. -/
theorem ofBits_eq_ok_iff :
    ty.ofBits bits = .ok value ↔ bits.length = ty.bitSize ∧ ty.decode bits = value := by
  unfold ofBits
  split <;> simp_all

/-- A value and a row are converted into each other, or neither is. -/
theorem toBits_eq_ok_iff_ofBits : ty.toBits value = .ok bits ↔ ty.ofBits bits = .ok value := by
  rw [toBits_eq_ok_iff, ofBits_eq_ok_iff]
  constructor
  · rintro ⟨admitted, rfl⟩
    exact ⟨length_encode ty value admitted, decode_encode ty value admitted⟩
  · rintro ⟨size, rfl⟩
    exact ⟨admits_decode ty bits, encode_decode ty bits size⟩

end Conversions

section Fields

/-- A tuple of a type has a component for every field, which the field admits. -/
theorem exists_component (admitted : (Ty.tuple fields).admits (.tuple components))
    (found : fields[index]? = some field) :
    ∃ component, components[index]? = some component ∧ field.admits component := by
  obtain ⟨inside, rfl⟩ := List.getElem?_eq_some_iff.mp found
  have each := admitsAll_iff.mp admitted
  have componentInside : index < components.length := each.length_eq ▸ inside
  exact ⟨components[index], List.getElem?_eq_getElem componentInside, each.get inside componentInside⟩

/-- The row of a component lies at the offset of its field in the row of the tuple. -/
theorem toBits_slice (row : (Ty.tuple fields).toBits (.tuple components) = .ok bits)
    (found : fields[index]? = some field) :
    ∃ component offset part, components[index]? = some component ∧
      (Ty.tuple fields).fieldOffset? index = some offset ∧ field.toBits component = .ok part ∧
        offset + field.bitSize ≤ bits.length ∧ (bits.drop offset).take field.bitSize = part := by
  obtain ⟨admitted, rfl⟩ := toBits_eq_ok_iff.mp row
  obtain ⟨component, isComponent, fits⟩ := exists_component admitted found
  refine ⟨component, _, _, isComponent, fieldOffset?_tuple found, if_pos fits, ?_, ?_⟩
  · rw [length_encode _ _ admitted]
    exact bitSizes_take_add_le found
  · exact encodeAll_slice admitted found isComponent

end Fields

section Listing

/-- The number whose binary digits are the bits of a value. -/
def code (ty : Ty) (value : Value) : Nat :=
  numberOfBits (ty.encode value)

theorem code_lt (admitted : ty.admits value) : ty.code value < ty.cardinality := by
  have small := numberOfBits_lt (ty.encode value)
  rwa [length_encode ty value admitted] at small

/-- Every value is listed at its code. -/
theorem valueAt_code (admitted : ty.admits value) : ty.valueAt (ty.code value) = value := by
  have rows := bitsOfNumber_numberOfBits (ty.encode value)
  rw [length_encode ty value admitted] at rows
  rw [valueAt, code, rows, decode_encode ty value admitted]

/-- What is listed at a number has that number as its code. -/
theorem code_valueAt (small : number < ty.cardinality) : ty.code (ty.valueAt number) = number := by
  rw [code, valueAt, encode_decode ty _ (length_bitsOfNumber _ _), numberOfBits_bitsOfNumber]
  exact Nat.mod_eq_of_lt small

theorem mem_values_iff : value ∈ ty.values ↔ ty.admits value := by
  rw [values, List.mem_map]
  constructor
  · rintro ⟨number, -, rfl⟩
    exact admits_decode ty _
  · intro admitted
    exact ⟨ty.code value, List.mem_range.mpr (code_lt admitted), valueAt_code admitted⟩

theorem nodup_values (ty : Ty) : ty.values.Nodup := by
  refine List.Nodup.map_on (fun left leftMember right rightMember same => ?_) List.nodup_range
  rw [← code_valueAt (List.mem_range.mp leftMember), same,
    code_valueAt (List.mem_range.mp rightMember)]

/-- Listing some values is listing all values and stopping there. -/
theorem firstValues_eq_take (ty : Ty) (count : Nat) : ty.firstValues count = ty.values.take count := by
  rw [firstValues, values, ← List.map_take, List.take_range]

end Listing

/-- The values of a type and the rows of its size are converted into each other, the row
of a tuple has the rows of its components at their offsets, and all values are listed,
each of them once. -/
theorem values_biject_rows (ty : Ty) :
    (∀ value, ty.admits value → ∃ bits, ty.toBits value = .ok bits ∧ ty.ofBits bits = .ok value) ∧
    (∀ bits : List Bool, bits.length = ty.bitSize →
      ∃ value, ty.ofBits bits = .ok value ∧ ty.admits value ∧ ty.toBits value = .ok bits) ∧
    (∀ fields components index field, ty = .tuple fields → ty.admits (.tuple components) →
      fields[index]? = some field → ∃ bits component offset part,
        ty.toBits (.tuple components) = .ok bits ∧ components[index]? = some component ∧
        ty.fieldOffset? index = some offset ∧ field.toBits component = .ok part ∧
          offset + field.bitSize ≤ bits.length ∧ (bits.drop offset).take field.bitSize = part) ∧
    (∀ value, value ∈ ty.values ↔ ty.admits value) ∧ ty.values.Nodup ∧
      ty.values.length = ty.cardinality ∧ ∀ count, ty.firstValues count = ty.values.take count := by
  refine ⟨fun value admitted => ?encoded, fun bits size => ?decoded,
    fun fields components index field isTuple admitted found => ?slices, fun _ => mem_values_iff,
    nodup_values ty, by simp [values], firstValues_eq_take ty⟩
  case encoded =>
    have row := toBits_eq_ok_iff.mpr ⟨admitted, rfl⟩
    exact ⟨_, row, toBits_eq_ok_iff_ofBits.mp row⟩
  case decoded =>
    have read := ofBits_eq_ok_iff.mpr ⟨size, rfl⟩
    exact ⟨_, read, admits_decode ty bits, toBits_eq_ok_iff_ofBits.mpr read⟩
  case slices =>
    subst isTuple
    have row := toBits_eq_ok_iff.mpr ⟨admitted, rfl⟩
    obtain ⟨component, offset, part, slice⟩ := toBits_slice row found
    exact ⟨_, component, offset, part, row, slice⟩

/-- An empty tuple between others has no bits of its own. -/
theorem values_biject_rows_nested :
    let ty := Ty.tuple [.bool, .tuple [], .tuple [.uint 2, .bool]]
    let value := Value.tuple [.bool true, .tuple [], .tuple [.uint 3, .bool false]]
    ty.admits value ∧ ty.values.length = 16 ∧ value ∈ ty.values ∧
      ∃ bits, ty.toBits value = .ok bits ∧ ty.ofBits bits = .ok value := by
  obtain ⟨encoded, -, -, listed, -, count, -⟩ :=
    values_biject_rows (.tuple [.bool, .tuple [], .tuple [.uint 2, .bool]])
  exact ⟨by decide, count.trans (by decide), (listed _).mpr (by decide), encoded _ (by decide)⟩

end Clausal.Ty
