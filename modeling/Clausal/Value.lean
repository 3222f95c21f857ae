import Clausal.Decimal
import Clausal.Ty

/-!
# Values

Values of the types in `Clausal.Ty`. A word value is an unbounded natural
number; whether it fits a width is a question of `Ty.admits`.
-/

namespace Clausal

/-- A boolean, an unsigned word or a tuple. -/
inductive Value where
  | bool (truth : Bool)
  | uint (number : Nat)
  | tuple (fields : List Value)
  deriving Repr, Hashable, Inhabited

namespace Value

mutual

/-- Structural equality of values is decidable. -/
def decEq : (left right : Value) → Decidable (left = right)
  | .bool a, .bool b =>
    if same : a = b then isTrue (congrArg Value.bool same)
    else isFalse fun equal => same (Value.bool.inj equal)
  | .uint m, .uint n =>
    if same : m = n then isTrue (congrArg Value.uint same)
    else isFalse fun equal => same (Value.uint.inj equal)
  | .tuple xs, .tuple ys =>
    match decEqList xs ys with
    | isTrue same => isTrue (congrArg Value.tuple same)
    | isFalse differ => isFalse fun equal => differ (Value.tuple.inj equal)
  | .bool _, .uint _ => isFalse nofun
  | .bool _, .tuple _ => isFalse nofun
  | .uint _, .bool _ => isFalse nofun
  | .uint _, .tuple _ => isFalse nofun
  | .tuple _, .bool _ => isFalse nofun
  | .tuple _, .uint _ => isFalse nofun

/-- Structural equality of component lists is decidable. -/
def decEqList : (left right : List Value) → Decidable (left = right)
  | [], [] => isTrue rfl
  | [], _ :: _ => isFalse nofun
  | _ :: _, [] => isFalse nofun
  | x :: xs, y :: ys =>
    match decEq x y with
    | isFalse differ => isFalse fun equal => differ (List.cons.inj equal).1
    | isTrue same =>
      match decEqList xs ys with
      | isTrue rest => isTrue (by rw [same, rest])
      | isFalse differ => isFalse fun equal => differ (List.cons.inj equal).2

end

instance : DecidableEq Value := decEq

mutual

/-- Booleans come before words, words before tuples; `false` comes before
`true`, words go by size and tuples lexicographically. -/
def compare : Value → Value → Ordering
  | .bool a, .bool b => Ord.compare a b
  | .bool _, _ => .lt
  | .uint _, .bool _ => .gt
  | .uint m, .uint n => Ord.compare m n
  | .uint _, .tuple _ => .lt
  | .tuple xs, .tuple ys => compareList xs ys
  | .tuple _, _ => .gt

/-- Lexicographic order on component lists; a proper initial part comes first. -/
def compareList : List Value → List Value → Ordering
  | [], [] => .eq
  | [], _ :: _ => .lt
  | _ :: _, [] => .gt
  | x :: xs, y :: ys => (compare x y).then (compareList xs ys)

end

instance : Ord Value := ⟨compare⟩

mutual

/-- The written form: `true`, `12`, `(true, 12)`. -/
def render : Value → String
  | .bool truth => if truth then "true" else "false"
  | .uint number => Decimal.render number
  | .tuple fields => "(" ++ ", ".intercalate (renderList fields) ++ ")"

/-- The written forms of the components, in order. -/
def renderList : List Value → List String
  | [] => []
  | field :: fields => render field :: renderList fields

end

/-- The truth value of a boolean. -/
def truth? : Value → Option Bool
  | .bool truth => some truth
  | _ => none

/-- The number of a word. -/
def number? : Value → Option Nat
  | .uint number => some number
  | _ => none

/-- The components of a tuple. -/
def fields? : Value → Option (List Value)
  | .tuple fields => some fields
  | _ => none

end Value

/-- Number of binary digits of `n` without leading zeros; zero has none. -/
def bitLength (n : Nat) : Nat :=
  if n = 0 then 0 else n.log2 + 1

/-- The low `width` binary digits of `n`, that is `n` modulo `2 ^ width`. A
number that is short enough is returned as it is, so that a huge width costs
nothing. -/
def truncate (width n : Nat) : Nat :=
  if bitLength n ≤ width then n else n % Nat.pow 2 width

namespace Ty

mutual

/-- Whether a value belongs to a type: kinds agree, words fit their width, and
tuples have one fitting component per field. -/
def admits : Ty → Value → Bool
  | .bool, .bool _ => true
  | .uint width, .uint number => bitLength number ≤ width
  | .tuple fields, .tuple values => admitsAll fields values
  | _, _ => false

/-- Whether a component list matches a field list, position by position. -/
def admitsAll : List Ty → List Value → Bool
  | [], [] => true
  | field :: fields, value :: values => admits field value && admitsAll fields values
  | _, _ => false

end

/-- The written form of a value at a type: a word at a word type carries its
width, as in `9:uint4`; every other value is written bare. -/
def renderValue : Ty → Value → String
  | .uint width, .uint number => Decimal.render number ++ ":uint" ++ width.repr
  | _, value => value.render

end Ty

end Clausal
