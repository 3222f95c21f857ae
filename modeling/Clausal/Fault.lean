import Clausal.Value

/-!
# Faults

A fault is a breach of an operation's precondition by its caller: a width of
zero, an index past the end, a value of the wrong kind. A part of a list that is
not all there is a fault too, and is never cut short (`front`, `slice`). A fault is kept apart from
the errors that an operation reports about its input, which have types of their
own; `Failure` joins the two.
-/

namespace Clausal

/-- The ways to breach a precondition. -/
inductive Fault where
  /-- A word type needs at least one bit. -/
  | zeroWidth
  /-- Zero is no literal. -/
  | zeroLiteral
  /-- A value was used at a type that does not contain it. -/
  | foreignValue (value : Value) (ty : Ty)
  /-- A row of bits does not have the size of the type it is read at. -/
  | bitCount (ty : Ty)
  /-- A boolean was needed. -/
  | notBool (value : Value)
  /-- A word was needed. -/
  | notUint (value : Value)
  /-- A tuple was needed. -/
  | notTuple (value : Value)
  /-- A tuple type was needed. -/
  | notTupleTy (ty : Ty)
  /-- Entries are numbered from one. -/
  | zeroIndex
  /-- An intern table starts with at most `2 ^ 31` buckets. -/
  | tableBits
  /-- A pool starts with at most `2 ^ 31` buckets. -/
  | poolBits
  /-- A position past the end of a list. -/
  | outOfRange
  /-- Rows to be added need one length. -/
  | unevenRows
  /-- A case that the caller rules out. -/
  | unreachable (reason : String)
  /-- A result outside the range of 32-bit signed literals. -/
  | overflow
  /-- A bounded descent reached its bound. -/
  | outOfFuel
  deriving DecidableEq, Repr

/-- The explanation of a fault. Range breaches carry none. -/
def Fault.message? : Fault → Option String
  | .zeroWidth => some "Bitvector width must be >= 1"
  | .zeroLiteral => some "Literal 0 is not allowed"
  | .foreignValue value ty => some ("Value " ++ value.render ++ " does not belong to " ++ ty.render)
  | .bitCount ty => some ("Bit-tuple size mismatch for " ++ ty.render)
  | .notBool value => some ("Expected a boolean operand, got " ++ value.render)
  | .notUint value => some ("Expected a bitvector operand, got " ++ value.render)
  | .notTuple value => some ("Expected a product operand, got " ++ value.render)
  | .notTupleTy ty => some ("Expected a product valtype, got " ++ ty.render)
  | .zeroIndex => some "Index is 0"
  | .tableBits => some "Table bits should be in the range 0..=31"
  | .poolBits => some "Storage bits should be in the range 0..=31"
  | .outOfRange => none
  | .unevenRows => none
  | .unreachable reason => some ("internal error: entered unreachable code: " ++ reason)
  | .overflow => none
  | .outOfFuel => none

/-- How an operation ends when it does not succeed: with an error about its
input, or with a fault of its caller. -/
inductive Failure (ε : Type) where
  | error (cause : ε)
  | fault (breach : Fault)
  deriving DecidableEq, Repr

/-- Change the kind of error and keep faults. -/
def Failure.map {ε δ : Type} (f : ε → δ) : Failure ε → Failure δ
  | .error cause => .error (f cause)
  | .fault breach => .fault breach

/-- The entry at a position of a list, or a fault. -/
def entry {α : Type} (items : List α) (index : Nat) : Except Fault α :=
  match items[index]? with
  | some item => .ok item
  | none => .error .outOfRange

/-- The first entries of a list, or a fault if there are fewer. -/
def front {α : Type} (items : List α) (count : Nat) : Except Fault (List α) :=
  if count ≤ items.length then .ok (items.take count) else .error .outOfRange

/-- The entries of an array from a position on, or a fault if there are fewer. -/
def slice {α : Type} (items : Array α) (position count : Nat) : Except Fault (Array α) :=
  if position + count ≤ items.size then .ok (items.extract position (position + count))
  else .error .outOfRange

/-- A computation with state whose changes outlive its failures. -/
abbrev Stateful (ε σ α : Type) := EStateM (Failure ε) σ α

namespace Stateful

/-- Fail with an error about the input. -/
def fail {ε σ α : Type} (cause : ε) : Stateful ε σ α :=
  throw (.error cause)

/-- Fail with a fault. -/
def breach {ε σ α : Type} (fault : Fault) : Stateful ε σ α :=
  throw (.fault fault)

/-- Run a stateless computation that may have a fault. -/
def ofExcept {ε σ α : Type} : Except Fault α → Stateful ε σ α
  | .ok result => pure result
  | .error fault => breach fault

end Stateful

namespace Ty

/-- The word type of a positive width. -/
def uint? (width : Nat) : Except Fault Ty :=
  if width = 0 then .error .zeroWidth else .ok (.uint width)

end Ty

end Clausal
