/-!
# Pairing of words

An elegant pairing function on 64-bit words, and its extension to triples and
lists. Below `2 ^ 32` no product wraps and the function is one-to-one; above
that it wraps and only mixes its arguments.
-/

namespace Clausal.Pairing

/-- Number the pairs along the sides of growing squares. -/
def pair (a b : UInt64) : UInt64 :=
  if a < b then b * b + a else a * a + a + b

/-- Pair a triple from the left. -/
def pair3 (a b c : UInt64) : UInt64 :=
  pair (pair a b) c

/-- Fold a list from the left, then pair its length with the result, so that
lists of different lengths differ. -/
def pairList (words : List UInt64) : UInt64 :=
  pair words.length.toUInt64 (words.foldl pair 0)

end Clausal.Pairing
