/-!
# Types

A type describes a finite set of values: the two booleans, the unsigned words
of a fixed width, or the tuples over a list of types. Types are compared
structurally, are ordered for sorting, and have a fixed size in bits.

The module contains no values; those are in `Clausal.Value`.
-/

namespace Clausal

/-- A finite value domain. A word type of width zero can be written down, but
`Ty.uint?` refuses to make one. -/
inductive Ty where
  | bool
  | uint (width : Nat)
  | tuple (fields : List Ty)
  deriving Repr, Hashable, Inhabited

namespace Ty

mutual

/-- Structural equality of types is decidable. -/
def decEq : (left right : Ty) → Decidable (left = right)
  | .bool, .bool => isTrue rfl
  | .uint v, .uint w =>
    if same : v = w then isTrue (congrArg Ty.uint same)
    else isFalse fun equal => same (Ty.uint.inj equal)
  | .tuple xs, .tuple ys =>
    match decEqList xs ys with
    | isTrue same => isTrue (congrArg Ty.tuple same)
    | isFalse differ => isFalse fun equal => differ (Ty.tuple.inj equal)
  | .bool, .uint _ => isFalse nofun
  | .bool, .tuple _ => isFalse nofun
  | .uint _, .bool => isFalse nofun
  | .uint _, .tuple _ => isFalse nofun
  | .tuple _, .bool => isFalse nofun
  | .tuple _, .uint _ => isFalse nofun

/-- Structural equality of field lists is decidable. -/
def decEqList : (left right : List Ty) → Decidable (left = right)
  | [], [] => isTrue rfl
  | [], _ :: _ => isFalse nofun
  | _ :: _, [] => isFalse nofun
  | x :: xs, y :: ys =>
    match decEq x y with
    | isFalse differ => isFalse fun equal => differ (List.cons.inj equal).1
    | isTrue same =>
      match decEqList xs ys with
      | isTrue rest => isTrue (by rw [same, rest])
      | isFalse differ => isFalse fun equal => differ (List.cons.inj equal).2

end

instance : DecidableEq Ty := decEq

mutual

/-- Booleans come before words, words before tuples. Words are ordered by
width and tuples lexicographically by field. -/
def compare : Ty → Ty → Ordering
  | .bool, .bool => .eq
  | .bool, _ => .lt
  | .uint _, .bool => .gt
  | .uint v, .uint w => Ord.compare v w
  | .uint _, .tuple _ => .lt
  | .tuple xs, .tuple ys => compareList xs ys
  | .tuple _, _ => .gt

/-- Lexicographic order on field lists; a proper initial part comes first. -/
def compareList : List Ty → List Ty → Ordering
  | [], [] => .eq
  | [], _ :: _ => .lt
  | _ :: _, [] => .gt
  | x :: xs, y :: ys => (compare x y).then (compareList xs ys)

end

instance : Ord Ty := ⟨compare⟩

mutual

/-- The written form: `bool`, `uint8`, `(bool, uint8)`. -/
def render : Ty → String
  | .bool => "bool"
  | .uint width => "uint" ++ width.repr
  | .tuple fields => "(" ++ ", ".intercalate (renderList fields) ++ ")"

/-- The written forms of the fields, in order. -/
def renderList : List Ty → List String
  | [] => []
  | field :: fields => render field :: renderList fields

end

mutual

/-- Number of bits in a value of this type. -/
def bitSize : Ty → Nat
  | .bool => 1
  | .uint width => width
  | .tuple fields => bitSizes fields

/-- Total number of bits in a field list. -/
def bitSizes : List Ty → Nat
  | [] => 0
  | field :: fields => bitSize field + bitSizes fields

end

/-- Whether this is the boolean type. -/
def isBool : Ty → Bool
  | .bool => true
  | _ => false

/-- Whether this is a word type. -/
def isUint : Ty → Bool
  | .uint _ => true
  | _ => false

/-- The width of a word type. -/
def width? : Ty → Option Nat
  | .uint width => some width
  | _ => none

/-- The fields of a tuple type. -/
def fields? : Ty → Option (List Ty)
  | .tuple fields => some fields
  | _ => none

/-- The position of the first bit of a tuple's field, if there is such a field. -/
def fieldOffset? (ty : Ty) (index : Nat) : Option Nat :=
  match ty with
  | .tuple fields => if index < fields.length then some (bitSizes (fields.take index)) else none
  | _ => none

/-- The number of values of this type. -/
def cardinality (ty : Ty) : Nat :=
  Nat.pow 2 ty.bitSize

end Ty

end Clausal
