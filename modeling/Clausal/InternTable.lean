import Std.Data.HashMap
import Clausal.Fault

/-!
# Intern tables

An intern table stores every distinct item once and numbers the items from one
in the order of their first insertion. Items are found through buckets chosen
by the low bits of a key; the number of buckets doubles whenever there are more
items than buckets.

The items of a bucket form a chain. The bucket has the number of its newest
item, and every item has the number of the next older one; zero ends a chain.
Numbers decrease along a chain, which `Chains` carries as a proof, so a search
comes to an end. Doubling the buckets links all items anew, in place and from
the oldest to the newest.

Only the buckets in use are kept, so that a table may start with many buckets
at no cost. Items with equal keys are told apart by equality, so any function
will do as the key; the full key is kept beside the number of the next item, so
that most other items of a bucket are passed over without a look at them.
-/

namespace Clausal

/-- The place of an item in a chain: its key, and the number of the next older
item of its bucket, or zero. -/
structure Link where
  key : UInt64
  next : Nat

/-- Links of items, of which those in front of the position `linked` are in the
chain of their bucket. A bucket has the number of its newest item, or zero. -/
structure Chains where
  links : Array Link
  heads : Std.HashMap UInt64 Nat
  linked : Nat
  descends : ∀ {position : Nat} {link : Link}, links[position]? = some link → link.next ≤ position
  bounded : ∀ bucket : UInt64, heads.getD bucket 0 ≤ linked

namespace Chains

/-- Chains without items. -/
def empty : Chains where
  links := #[]
  heads := ∅
  linked := 0
  descends := by simp
  bounded := by simp

/-- The number of the newest item of a bucket, or zero. -/
def head (chains : Chains) (bucket : UInt64) : Nat :=
  chains.heads.getD bucket 0

/-- Add an item behind the others, outside all chains. -/
def push (chains : Chains) (key : UInt64) : Chains :=
  { chains with
    links := chains.links.push ⟨key, 0⟩
    descends := by
      intro position link found
      rw [Array.getElem?_push] at found
      split at found
      · cases found
        exact Nat.zero_le position
      · exact chains.descends found }

/-- Put the item behind the linked ones at the head of its bucket. -/
def linkNext (mask : UInt64) (chains : Chains) : Chains :=
  if inside : chains.linked < chains.links.size then
    let key := chains.links[chains.linked].key
    let bucket := key &&& mask
    { links := chains.links.set chains.linked ⟨key, chains.head bucket⟩ inside
      heads := chains.heads.insert bucket (chains.linked + 1)
      linked := chains.linked + 1
      descends := by
        intro position link found
        rw [Array.getElem?_set] at found
        split at found
        · rename_i same
          cases found
          exact same ▸ chains.bounded bucket
        · exact chains.descends found
      bounded := by
        intro other
        rw [Std.HashMap.getD_insert]
        split
        · exact Nat.le_refl _
        · exact Nat.le_succ_of_le (chains.bounded other) }
  else chains

/-- Put the next `count` items at the heads of their buckets, one after the
other. -/
def linkMany (mask : UInt64) : (count : Nat) → Chains → Chains
  | 0, chains => chains
  | count + 1, chains => linkMany mask count (chains.linkNext mask)

/-- Link all items anew with the buckets of another mask. -/
def relink (mask : UInt64) (chains : Chains) : Chains :=
  linkMany mask chains.links.size { chains with heads := ∅, linked := 0, bounded := by simp }

end Chains

/-- Distinct items with the chains that find them. -/
structure InternTable (α : Type) where
  key : α → UInt64
  items : Array α
  chains : Chains
  bucketCount : Nat
  mask : UInt64

namespace InternTable

variable {α : Type}

/-- The mask that selects one of `count` buckets, when `count` is a power of two. -/
def maskOf (count : Nat) : UInt64 :=
  (count - 1).toUInt64

/-- A table without items and with `2 ^ bits` buckets. -/
def empty (key : α → UInt64) (bits : Nat) : InternTable α where
  key := key
  items := #[]
  chains := .empty
  bucketCount := Nat.pow 2 bits
  mask := maskOf (Nat.pow 2 bits)

/-- A table without items, provided that the number of buckets is in range. -/
def empty? (key : α → UInt64) (bits : Nat) : Except Fault (InternTable α) :=
  if bits ≤ 31 then .ok (empty key bits) else .error .tableBits

/-- The number of items. -/
def size (table : InternTable α) : Nat :=
  table.items.size

/-- The item with a number, if the number was given out. -/
def get? (table : InternTable α) : Nat → Option α
  | 0 => none
  | position + 1 => table.items[position]?

/-- The item with a number, which must have been given out. -/
def get (table : InternTable α) (number : Nat) : Except Fault α :=
  if number = 0 then .error .zeroIndex
  else
    match table.get? number with
    | some item => .ok item
    | none => .error .outOfRange

/-- All items with their numbers, in the order of insertion. -/
def toList (table : InternTable α) : List (Nat × α) :=
  table.items.toList.zipIdx.map fun (item, position) => (position + 1, item)

/-- The number of an item with a key in the rest of a chain, from a number on. -/
def search [DecidableEq α] (table : InternTable α) (key : UInt64) (item : α) : Nat → Option Nat
  | 0 => none
  | position + 1 =>
    match _found : table.chains.links[position]? with
    | none => none
    | some link =>
      if link.key = key ∧ table.items[position]? = some item then some (position + 1)
      else search table key item link.next
termination_by number => number
decreasing_by exact Nat.lt_succ_of_le (table.chains.descends _found)

/-- The number of an item, if it is stored. -/
def find? [DecidableEq α] (table : InternTable α) (item : α) : Option Nat :=
  let key := table.key item
  table.search key item (table.chains.head (key &&& table.mask))

/-- Double the number of buckets and distribute the items anew. -/
def grow (table : InternTable α) : InternTable α :=
  let count := table.bucketCount * 2
  { table with
    chains := table.chains.relink (maskOf count)
    bucketCount := count
    mask := maskOf count }

/-- Append an item that is not yet stored. -/
def append (table : InternTable α) (item : α) : InternTable α :=
  { table with
    items := table.items.push item
    chains := (table.chains.push (table.key item)).linkNext table.mask }

/-- Double the buckets if there are more items than buckets. -/
def rebalance (table : InternTable α) : InternTable α :=
  if table.items.size > table.bucketCount then table.grow else table

/-- Store an item unless it is stored already, and return its number. -/
def put [DecidableEq α] (table : InternTable α) (item : α) : Nat × InternTable α :=
  match table.find? item with
  | some number => (number, table)
  | none =>
    let table := table.append item
    (table.items.size, table.rebalance)

/-- An item is returned for a number exactly if the number was given out for it. -/
theorem get_eq_ok_iff {table : InternTable α} {number : Nat} {item : α} :
    table.get number = .ok item ↔ table.get? number = some item := by
  unfold get
  split
  · rename_i zero
    simp [zero, get?]
  · split
    · rename_i found
      simp [found]
    · rename_i missing
      simp [missing]

@[simp] theorem items_grow (table : InternTable α) : table.grow.items = table.items := rfl

@[simp] theorem items_append (table : InternTable α) (item : α) :
    (table.append item).items = table.items.push item := rfl

@[simp] theorem size_append (table : InternTable α) (item : α) :
    (table.append item).size = table.size + 1 :=
  Array.size_push item

@[simp] theorem bucketCount_append (table : InternTable α) (item : α) :
    (table.append item).bucketCount = table.bucketCount := rfl

@[simp] theorem size_grow (table : InternTable α) : table.grow.size = table.size := rfl

@[simp] theorem bucketCount_grow (table : InternTable α) :
    table.grow.bucketCount = table.bucketCount * 2 := rfl

@[simp] theorem items_rebalance (table : InternTable α) :
    table.rebalance.items = table.items := by
  unfold rebalance
  split <;> rfl

@[simp] theorem key_rebalance (table : InternTable α) : table.rebalance.key = table.key := by
  unfold rebalance
  split <;> rfl

section Put

variable [DecidableEq α] {table : InternTable α} {item : α}

theorem put_of_found {number : Nat} (found : table.find? item = some number) :
    table.put item = (number, table) := by
  rw [put, found]

theorem put_of_missing (missing : table.find? item = none) :
    table.put item = (table.items.size + 1, (table.append item).rebalance) := by
  rw [put, missing]
  simp

/-- Storing an item keeps the items or adds this one at the end. -/
theorem items_put (table : InternTable α) (item : α) :
    (table.put item).2.items = table.items ∨
      (table.put item).2.items = table.items.push item := by
  cases found : table.find? item with
  | some number => exact .inl (by rw [put_of_found found])
  | none => exact .inr (by rw [put_of_missing found, items_rebalance, items_append])

end Put

end InternTable

end Clausal
