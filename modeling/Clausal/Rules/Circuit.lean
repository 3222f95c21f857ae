import Clausal.Pool.Build

/-!
# Arithmetic circuits

Addition and multiplication of words as boolean expressions for the bits of the
result. Rows of bits start with the least significant one.

Parts of a circuit are used several times, so circuits are stored while they
are made and are not drafts.
-/

namespace Clausal.Circuit

/-- The low `width` bits of a word; missing high bits are `false`. -/
def lowBits (width : Nat) (e : ExprId) : Build (List ExprId) := do
  let actual := ((← Build.tyOf e).width?).getD 0
  Build.collect width fun index =>
    if index < actual then Build.bit index e else Build.truth false

/-- The sum of columns and a carry. The carry out of the last column is not
made. -/
def ripple : Option ExprId → List (ExprId × ExprId) → Build (List ExprId)
  | _, [] => pure []
  | none, (x, y) :: columns => do
    let half ← Build.xor x y
    if columns.isEmpty then
      return [half]
    let carry ← Build.and [x, y]
    let rest ← ripple (some carry) columns
    return half :: rest
  | some carry, (x, y) :: columns => do
    let half ← Build.xor x y
    let digit ← Build.xor half carry
    if columns.isEmpty then
      return [digit]
    let generated ← Build.and [x, y]
    let propagated ← Build.and [carry, half]
    let carry ← Build.or [generated, propagated]
    let rest ← ripple (some carry) columns
    return digit :: rest

/-- The sum of two rows, which must have one length. -/
def sum (xs ys : List ExprId) : Build (List ExprId) :=
  if xs.length = ys.length then ripple none (xs.zip ys) else Stateful.breach .unevenRows

/-- The products of the lowest digits of one row, `count` of them, with one digit of
another. -/
def partialProduct (xs ys : List ExprId) (digit count : Nat) : Build (List ExprId) :=
  Build.collect count fun index => do
    let x ← Stateful.ofExcept (entry xs index)
    let y ← Stateful.ofExcept (entry ys digit)
    Build.and [x, y]

/-- Add the partial products for `count` digits of `ys`, from `digit` on, to an
accumulated row, whose lowest column is final. Each product is shifted by one more
column and ends with the row, so it has one digit for each round that is left. -/
def addRows (xs ys : List ExprId) : (count digit : Nat) → List ExprId → Build (List ExprId)
  | 0, _, columns => pure columns
  | count + 1, digit, columns => do
    let row ← partialProduct xs ys digit (count + 1)
    match columns with
    | [] => Stateful.breach .outOfRange
    | column :: columns =>
      let total ← sum columns row
      let rest ← addRows xs ys count (digit + 1) total
      return column :: rest

/-- The word of a width that is the sum of two words. -/
def add (width : Nat) (a b : ExprId) : Build ExprId := do
  let xs ← lowBits width a
  let ys ← lowBits width b
  let total ← sum xs ys
  Build.bits total

/-- The word of a width that is the product of two words. -/
def mul (width : Nat) (a b : ExprId) : Build ExprId := do
  let xs ← lowBits width a
  let ys ← lowBits width b
  let row ← partialProduct xs ys 0 xs.length
  let product ← addRows xs ys (width - 1) 1 row
  Build.bits product

end Clausal.Circuit
