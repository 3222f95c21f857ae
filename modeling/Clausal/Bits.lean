import Clausal.Fault

/-!
# Values as rows of bits

Every value of a type is a row of `Ty.bitSize` bits, the least significant
first and the fields of a tuple one after the other. `Ty.toBits` and
`Ty.ofBits` convert between the two, and `Ty.valueAt` numbers the values of a
type by reading the binary digits of a number as such a row.
-/

namespace Clausal

/-- The number whose binary digits are `bits`, least significant first. -/
def numberOfBits (bits : List Bool) : Nat :=
  bits.foldr (fun bit high => bit.toNat + 2 * high) 0

/-- The `width` low binary digits of `number`, least significant first. -/
def bitsOfNumber (width number : Nat) : List Bool :=
  (List.range width).map number.testBit

namespace Ty

mutual

/-- The bits of a value that the type admits. For other values the row has no
meaning; `toBits` checks first. -/
def encode : Ty → Value → List Bool
  | .bool, .bool truth => [truth]
  | .uint width, .uint number => bitsOfNumber width number
  | .tuple fields, .tuple values => encodeAll fields values
  | _, _ => []

/-- The bits of the components of a tuple, one after the other. -/
def encodeAll : List Ty → List Value → List Bool
  | field :: fields, value :: values => encode field value ++ encodeAll fields values
  | _, _ => []

end

/-- The bits of a value, which must belong to the type. -/
def toBits (ty : Ty) (value : Value) : Except Fault (List Bool) :=
  if ty.admits value then .ok (ty.encode value) else .error (.foreignValue value ty)

mutual

/-- The value with the given bits. A row of another size than the type's is
read as far as it goes, with missing bits taken as `false`; `ofBits` checks
first. -/
def decode : Ty → List Bool → Value
  | .bool, bits => .bool (bits.headD false)
  | .uint width, bits => .uint (numberOfBits (bits.take width))
  | .tuple fields, bits => .tuple (decodeAll fields bits)

/-- Cut a row into the components of a tuple. -/
def decodeAll : List Ty → List Bool → List Value
  | [], _ => []
  | field :: fields, bits =>
    decode field (bits.take field.bitSize) :: decodeAll fields (bits.drop field.bitSize)

end

/-- The value with the given bits, whose number must be the type's size. -/
def ofBits (ty : Ty) (bits : List Bool) : Except Fault Value :=
  if bits.length = ty.bitSize then .ok (ty.decode bits) else .error (.bitCount ty)

/-- The value whose bits are the binary digits of `code`. -/
def valueAt (ty : Ty) (code : Nat) : Value :=
  ty.decode (bitsOfNumber ty.bitSize code)

/-- The first `count` values of a type, in the order of their codes, or all of
them if there are fewer. -/
def firstValues (ty : Ty) (count : Nat) : List Value :=
  (List.range (min count ty.cardinality)).map ty.valueAt

/-- All values of a type, in the order of their codes. -/
def values (ty : Ty) : List Value :=
  (List.range ty.cardinality).map ty.valueAt

end Ty

end Clausal
