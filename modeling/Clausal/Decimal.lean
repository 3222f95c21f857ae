/-!
# Decimal text

The decimal digits of a number. A long number is split in the middle again and
again, so that its text costs little more than a multiplication of that length;
the powers of ten at which it is split are squares of each other.
-/

namespace Clausal.Decimal

/-- Ten to the number of digits that are written at once. -/
def chunk : Nat :=
  10000000000000000

/-- The given powers with `levels` more in front, each the square of the next. -/
def powers : Nat → List Nat → List Nat
  | levels + 1, power :: smaller => powers levels (power * power :: power :: smaller)
  | _, found => found

/-- How often `chunk` is squared for a number of `bits` bits, so that the square
of the last power exceeds the number. A chunk has more than 53 bits. -/
def levels (bits : Nat) : Nat :=
  (bits / 53).log2

/-- Digits with zeros in front, so that there are as many as `chunk` has zeros. -/
def padded (digits : String) : String :=
  String.ofList (List.replicate (16 - digits.length) '0') ++ digits

/-- The digits of a number, with zeros in front, split at the given powers. -/
def digitsAt : List Nat → Nat → String
  | [], n => padded n.repr
  | power :: smaller, n => digitsAt smaller (n / power) ++ digitsAt smaller (n % power)

/-- The decimal text of a number. -/
def render (n : Nat) : String :=
  if n < chunk then n.repr
  else
    let digits := digitsAt (powers (levels (n.log2 + 1)) [chunk]) n
    String.ofList (digits.toList.dropWhile (· == '0'))

end Clausal.Decimal
