/-!
# Decision queues

A decision queue is a linked list of the variables of a search. The next
variable to decide is the first one that is not assigned. Variables that take
part in a conflict can be moved to the front.

The queue remembers a variable in front of which every variable is assigned, so
that the front need not be walked again for every decision.

Queues are a part of `Clausal.Engine.Search`, about which nothing is proved.
-/

namespace Clausal.Search

/-- Variables in the order in which they are decided. Zero is not a variable and
ends the list. -/
structure Queue where
  /-- The variable behind each variable. -/
  next : Array Nat
  /-- The variable in front of each variable. -/
  previous : Array Nat
  /-- Numbers that are greater for variables closer to the front. -/
  stamps : Array Nat
  /-- The variable at the front. -/
  first : Nat
  /-- All variables in front of this one are assigned. -/
  cursor : Nat
  /-- The stamp of the variable that is moved to the front next. -/
  clock : Nat

namespace Queue

/-- The variables from one to `count` in ascending order. -/
def ascending (count : Nat) : Queue where
  next := (Array.range (count + 1)).map fun var => if var < count then var + 1 else 0
  previous := (Array.range (count + 1)).map fun var => var - 1
  stamps := (Array.range (count + 1)).map fun var => count - var
  first := min count 1
  cursor := min count 1
  clock := count

/-- Move an assigned variable to the front. -/
def moveFirst (queue : Queue) (var : Nat) : Queue :=
  let before := queue.previous.getD var 0
  let after := queue.next.getD var 0
  let front := queue.first
  if before = 0 then queue
  else
    let clock := queue.clock
    let cursor := queue.cursor
    let previous := if after = 0 then queue.previous
      else queue.previous.setIfInBounds after before
    { queue with
      next := (queue.next.setIfInBounds before after).setIfInBounds var front
      previous := (previous.setIfInBounds front var).setIfInBounds var 0
      stamps := queue.stamps.setIfInBounds var clock
      first := var
      cursor := if cursor ≠ var then cursor else if after = 0 then before else after
      clock := clock + 1 }

/-- Note that a variable is no longer assigned. -/
def release (queue : Queue) (var : Nat) : Queue :=
  if queue.stamps.getD queue.cursor 0 < queue.stamps.getD var 0 then { queue with cursor := var }
  else queue

/-- The first variable at or behind a variable that is not assigned, zero if there
is none. The walk takes at most `bound` steps. -/
@[specialize] def walk (next : Array Nat) (isAssigned : Nat → Bool) : Nat → Nat → Nat
  | 0, _ => 0
  | bound + 1, var =>
    if var = 0 then 0
    else if isAssigned var then walk next isAssigned bound (next.getD var 0)
    else var

end Queue

end Clausal.Search
