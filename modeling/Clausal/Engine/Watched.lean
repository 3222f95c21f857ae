import Clausal.Engine.Trail

/-!
# Watched clauses

The clauses of a search stand one after another in one array. A clause at an
address is its length, followed by the codes of its literals. A clause of length
zero was dropped.

The first two literals of a clause are watched. A clause needs to be looked at
only when a watched literal becomes false: then a literal that is not false is
moved into its place, or the clause forces its other watched literal, or it is
false as a whole. Each literal has the list of the clauses that watch it. An
entry is the address of a clause and a literal of the clause; if that literal is
true there is nothing to do.

Watched clauses are a part of `Clausal.Engine.Search`, about which nothing is proved.
-/

namespace Clausal.Search

/-- Clauses with the lists of their watched literals. -/
structure Watched where
  arena : Array Nat
  /-- Addresses and literals in turn, by the code of the watched literal. -/
  watches : Array (Array Nat)

namespace Watched

/-- No clauses, over variables below `size`. Address zero is not used. -/
def empty (size : Nat) : Watched where
  arena := #[0]
  watches := Array.replicate (2 * size) #[]

/-- Enter a clause into the list of a watched literal. -/
def enter (watches : Array (Array Nat)) (code address other : Nat) : Array (Array Nat) :=
  watches.modify code fun list => (list.push address).push other

/-- Add a clause with at least two literals and watch the first two. The clause
stands at the former end of the array. -/
def add (clauses : Watched) (codes : Array Nat) : Watched :=
  let address := clauses.arena.size
  let first := codes.getD 0 0
  let second := codes.getD 1 0
  { arena := codes.foldl Array.push (clauses.arena.push codes.size)
    watches := enter (enter clauses.watches first address second) second address first }

/-- The length of a clause. -/
@[inline] def length (clauses : Watched) (address : Nat) : Nat :=
  clauses.arena.getD address 0

/-- Drop a clause. -/
def drop (clauses : Watched) (address : Nat) : Watched :=
  { clauses with arena := clauses.arena.setIfInBounds address 0 }

/-- Fold over `count` literals from a position on. -/
@[specialize] def foldFrom {α : Type} (arena : Array Nat) (step : α → Nat → α) :
    Nat → Nat → α → α
  | 0, _, state => state
  | count + 1, position, state =>
    foldFrom arena step count (position + 1) (step state (arena.getD position 0))

/-- Fold over the literals of a clause. -/
@[inline] def fold {α : Type} (clauses : Watched) (address : Nat) (step : α → Nat → α)
    (state : α) : α :=
  foldFrom clauses.arena step (clauses.length address) (address + 1) state

/-- The position of the first literal that is not false among `count` literals,
zero if there is none. -/
def findOpen (arena : Array Nat) (marks : Array Mark) : Nat → Nat → Nat
  | 0, _ => 0
  | count + 1, position =>
    match marks.getD (arena.getD position 0) .unknown with
    | .fails => findOpen arena marks count (position + 1)
    | _ => position

/-- Make the literal at `address + 2` the one that is false, and return the other
watched literal with the arena. -/
@[inline] def orient (arena : Array Nat) (address code : Nat) : Nat × Array Nat :=
  let first := arena.getD (address + 1) 0
  if first = code then
    let second := arena.getD (address + 2) 0
    (second, (arena.setIfInBounds (address + 1) second).setIfInBounds (address + 2) code)
  else (first, arena)

/-- The result of looking at the clauses that watch a literal: the entries that
stay, the clauses, the trail, and the address of a false clause or zero. -/
structure Visit where
  list : Array Nat
  arena : Array Nat
  watches : Array (Array Nat)
  trail : Trail
  conflict : Nat

/-- Write an entry. -/
@[inline] def keep (list : Array Nat) (position address other : Nat) : Array Nat :=
  (list.setIfInBounds position address).setIfInBounds (position + 1) other

/-- Keep the remaining entries as they are. -/
def keepAll : Nat → Nat → Nat → Array Nat → Array Nat
  | 0, _, target, list => list.shrink target
  | count + 1, source, target, list =>
    let address := list.getD source 0
    let other := list.getD (source + 1) 0
    keepAll count (source + 2) (target + 2) (keep list target address other)

/-- Look at the clauses that watch a literal that became false. Entries are read
at `source` and those that stay are written at `target`. -/
def visit (code : Nat) : Nat → Nat → Nat → Array Nat → Array Nat → Array (Array Nat) → Trail →
    Visit
  | 0, _, target, list, arena, watches, trail => ⟨list.shrink target, arena, watches, trail, 0⟩
  | count + 1, source, target, list, arena, watches, trail =>
    let address := list.getD source 0
    let other := list.getD (source + 1) 0
    match trail.mark other with
    | .holds =>
      visit code count (source + 2) (target + 2) (keep list target address other) arena watches
        trail
    | _ =>
      let length := arena.getD address 0
      if length = 0 then visit code count (source + 2) target list arena watches trail
      else
        match orient arena address code with
        | (partner, arena) =>
          match trail.mark partner with
          | .holds =>
            visit code count (source + 2) (target + 2) (keep list target address partner) arena
              watches trail
          | mark =>
            let position := findOpen arena trail.marks (length - 2) (address + 3)
            if position ≠ 0 then
              let replacement := arena.getD position 0
              let arena := (arena.setIfInBounds (address + 2) replacement).setIfInBounds
                position code
              visit code count (source + 2) target list arena
                (enter watches replacement address partner) trail
            else
              let list := keep list target address partner
              match mark with
              | .fails =>
                ⟨keepAll count (source + 2) (target + 2) list, arena, watches, trail, address⟩
              | _ =>
                visit code count (source + 2) (target + 2) list arena watches
                  (trail.push partner address)

/-- Look at the consequences of the true literals. The result has the address of
a false clause, or zero if there is none. Each variable is looked at once, so
their number bounds the steps. -/
def propagate : Nat → Watched → Trail → Watched × Trail × Nat
  | 0, clauses, trail => (clauses, trail, 0)
  | bound + 1, clauses, trail =>
    if trail.head < trail.codes.size then
      let code := opposite (trail.codes.getD trail.head 0)
      let head := trail.head + 1
      let list := clauses.watches.getD code #[]
      let watches := clauses.watches.setIfInBounds code #[]
      match visit code (list.size / 2) 0 0 list clauses.arena watches
          { trail with head := head } with
      | ⟨list, arena, watches, trail, conflict⟩ =>
        let clauses := ⟨arena, watches.setIfInBounds code list⟩
        if conflict = 0 then propagate bound clauses trail else (clauses, trail, conflict)
    else (clauses, trail, 0)

end Watched

end Clausal.Search
