import Mathlib
import Clausal.InternTable

/-!
# Intern tables find what they store

`InternTable.put` keeps the numbers that were given out and returns a number of its
item. `InternTable.Lawful` is the invariant that makes the number unique: the chain of
every bucket has the items whose keys select it (`Chains.Threaded`), so an item that is
not found is not stored, and none is stored twice. It holds for any key, since a key is
only ever compared with itself.

Linking the next item keeps the chains of the items in front of it
(`Threaded.linkNext`), so they are also right in the middle of a doubling of the
buckets, and at its end (`threaded_relink`).
-/

namespace Clausal

namespace Chains

variable {chains before after : Chains} {mask bucket : UInt64} {number position : Nat} {link : Link}
  {numbers : List Nat}

section Paths

/-- The links lead from a number through the given numbers to the end of a chain. -/
inductive Path (chains : Chains) : Nat → List Nat → Prop where
  | nil : Path chains 0 []
  | cons {position : Nat} {link : Link} {numbers : List Nat}
      (found : chains.links[position]? = some link) (rest : Path chains link.next numbers) :
      Path chains (position + 1) ((position + 1) :: numbers)

theorem Path.le {other : Nat} (path : chains.Path number numbers) (member : other ∈ numbers) :
    other ≤ number := by
  induction path with
  | nil => cases member
  | cons found _ inductionHypothesis =>
    rcases List.mem_cons.mp member with rfl | member
    · exact le_rfl
    · have below := chains.descends found
      have further := inductionHypothesis member
      omega

/-- Numbers decrease along a path, so no item is met twice. -/
theorem Path.descending (path : chains.Path number numbers) : numbers.Pairwise (· > ·) := by
  induction path with
  | nil => exact .nil
  | cons found rest inductionHypothesis =>
    refine .cons (fun other member => ?_) inductionHypothesis
    have below := chains.descends found
    have further := rest.le member
    omega

/-- A path only depends on the links in front of where it starts. -/
theorem Path.congr {bound : Nat}
    (agree : ∀ position < bound, after.links[position]? = before.links[position]?)
    (path : before.Path number numbers) (low : number ≤ bound) : after.Path number numbers := by
  induction path with
  | nil => exact .nil
  | cons found _ inductionHypothesis =>
    have below := before.descends found
    exact .cons ((agree _ (by omega)).trans found) (inductionHypothesis (by omega))

end Paths

section Keys

/-- The keys of all items. -/
def keys (chains : Chains) : Array UInt64 :=
  chains.links.map Link.key

theorem size_keys : chains.keys.size = chains.links.size := by
  simp [keys]

theorem keys_empty : empty.keys = #[] := by
  simp [keys, empty]

theorem keys_push (key : UInt64) : (chains.push key).keys = chains.keys.push key := by
  simp [keys, push]

/-- Linking an item changes no key. -/
theorem keys_linkNext : (chains.linkNext mask).keys = chains.keys := by
  unfold linkNext
  split
  · apply Array.ext <;> grind [keys]
  · rfl

theorem keys_linkMany (count : Nat) : (linkMany mask count chains).keys = chains.keys := by
  induction count generalizing chains with
  | zero => rfl
  | succ count inductionHypothesis => rw [linkMany, inductionHypothesis, keys_linkNext]

theorem keys_relink : (chains.relink mask).keys = chains.keys :=
  keys_linkMany _

end Keys

section Linking

theorem getElem?_links_push {key : UInt64} (inside : position < chains.links.size) :
    (chains.push key).links[position]? = chains.links[position]? := by
  simp [push, Array.getElem?_push, inside.ne]

variable (found : chains.links[chains.linked]? = some link)
include found

theorem linked_linkNext : (chains.linkNext mask).linked = chains.linked + 1 := by
  obtain ⟨inside, -⟩ := Array.getElem?_eq_some_iff.mp found
  simp [linkNext, inside]

theorem head_linkNext : (chains.linkNext mask).head bucket =
    if link.key &&& mask = bucket then chains.linked + 1 else chains.head bucket := by
  obtain ⟨inside, rfl⟩ := Array.getElem?_eq_some_iff.mp found
  simp [linkNext, inside, head, Std.HashMap.getD_insert]

theorem getElem?_links_linkNext : (chains.linkNext mask).links[position]? =
    if chains.linked = position then some ⟨link.key, chains.head (link.key &&& mask)⟩
    else chains.links[position]? := by
  obtain ⟨inside, rfl⟩ := Array.getElem?_eq_some_iff.mp found
  simp [linkNext, inside, Array.getElem?_set]

end Linking

section Threads

/-- The item at a position has a key that selects a bucket. -/
def Selects (chains : Chains) (mask bucket : UInt64) (position : Nat) : Prop :=
  ∃ key, chains.keys[position]? = some key ∧ key &&& mask = bucket

/-- The chain of every bucket has exactly the linked items whose keys select it. -/
def Threaded (chains : Chains) (mask : UInt64) : Prop :=
  ∀ bucket, ∃ numbers, chains.Path (chains.head bucket) numbers ∧
    ∀ number, number ∈ numbers ↔
      ∃ position, number = position + 1 ∧ position < chains.linked ∧ chains.Selects mask bucket position

/-- Without linked items, all chains are empty. -/
theorem threaded_of_unlinked (unlinked : chains.linked = 0) : chains.Threaded mask := by
  intro bucket
  have start : chains.head bucket = 0 := by
    have low := chains.bounded bucket
    rw [unlinked] at low
    exact Nat.le_zero.mp low
  refine ⟨[], start ▸ .nil, fun number => ?_⟩
  simp [unlinked]

/-- An item outside the chains does not disturb them. -/
theorem Threaded.push (threaded : chains.Threaded mask) (known : chains.linked ≤ chains.links.size)
    (key : UInt64) : (chains.push key).Threaded mask := by
  intro bucket
  obtain ⟨numbers, path, members⟩ := threaded bucket
  refine ⟨numbers, path.congr ?links (chains.bounded bucket), fun number => (members number).trans ?keys⟩
  case links => exact fun position low => getElem?_links_push (low.trans_le known)
  case keys =>
    refine exists_congr fun position => and_congr_right fun _ => and_congr_right fun low => ?_
    have inside : position ≠ chains.keys.size := by
      rw [size_keys]
      omega
    rw [Selects, Selects, keys_push, Array.getElem?_push, if_neg inside]

/-- Linking the next item keeps the chains of the other buckets and puts the item at the
head of its own. The items that are linked later may have any links. -/
theorem Threaded.linkNext (threaded : chains.Threaded mask) : (chains.linkNext mask).Threaded mask := by
  cases found : chains.links[chains.linked]? with
  | none =>
    have outside := Array.getElem?_eq_none_iff.mp found
    rwa [Chains.linkNext, dif_neg (not_lt.mpr outside)]
  | some link =>
    have agree : ∀ position < chains.linked,
        (chains.linkNext mask).links[position]? = chains.links[position]? := fun position low => by
      rw [getElem?_links_linkNext found, if_neg low.ne']
    have selects : ∀ {bucket position}, (chains.linkNext mask).Selects mask bucket position ↔
        chains.Selects mask bucket position := by
      intro bucket position
      rw [Selects, Selects, keys_linkNext]
    have last : ∀ {bucket}, chains.Selects mask bucket chains.linked ↔ link.key &&& mask = bucket := by
      intro bucket
      simp [Selects, keys, found]
    intro bucket
    obtain ⟨numbers, path, members⟩ := threaded bucket
    have kept := path.congr agree (chains.bounded bucket)
    rw [head_linkNext found, linked_linkNext found]
    simp only [selects, Nat.lt_succ_iff_lt_or_eq]
    split
    · rename_i same
      subst same
      have first : (chains.linkNext mask).links[chains.linked]? =
          some ⟨link.key, chains.head (link.key &&& mask)⟩ := by
        rw [getElem?_links_linkNext found, if_pos rfl]
      refine ⟨(chains.linked + 1) :: numbers, .cons first kept, fun number => ?_⟩
      rw [List.mem_cons, members]
      constructor
      · rintro (rfl | ⟨position, rfl, low, selected⟩)
        · exact ⟨chains.linked, rfl, .inr rfl, last.mpr rfl⟩
        · exact ⟨position, rfl, .inl low, selected⟩
      · rintro ⟨position, rfl, low | rfl, selected⟩
        · exact .inr ⟨position, rfl, low, selected⟩
        · exact .inl rfl
    · rename_i other
      refine ⟨numbers, kept, fun number => (members number).trans ?_⟩
      constructor
      · rintro ⟨position, rfl, low, selected⟩
        exact ⟨position, rfl, .inl low, selected⟩
      · rintro ⟨position, rfl, low | rfl, selected⟩
        · exact ⟨position, rfl, low, selected⟩
        · exact absurd (last.mp selected) other

theorem Threaded.linkMany (threaded : chains.Threaded mask) (count : Nat) :
    (linkMany mask count chains).Threaded mask := by
  induction count generalizing chains with
  | zero => exact threaded
  | succ count inductionHypothesis => exact inductionHypothesis threaded.linkNext

/-- Linking items one after the other links that many, if there are as many left. -/
theorem linked_linkMany {count : Nat} (enough : chains.linked + count ≤ chains.keys.size) :
    (linkMany mask count chains).linked = chains.linked + count := by
  induction count generalizing chains with
  | zero => rfl
  | succ count inductionHypothesis =>
    have inside : chains.linked < chains.links.size := by
      rw [size_keys] at enough
      omega
    have next : (chains.linkNext mask).linked = chains.linked + 1 :=
      linked_linkNext (Array.getElem?_eq_getElem inside)
    rw [Chains.linkMany, inductionHypothesis, next]
    · omega
    · rw [next, keys_linkNext]
      omega

/-- When all items are linked anew, the chains are those of the new mask, whatever the
links were before. -/
theorem threaded_relink : (chains.relink mask).Threaded mask :=
  (threaded_of_unlinked rfl).linkMany _

theorem linked_relink : (chains.relink mask).linked = chains.keys.size := by
  rw [relink, linked_linkMany (by simp [keys]), size_keys, Nat.zero_add]

end Threads

end Chains

namespace InternTable

variable {α : Type} {table : InternTable α} {item other : α} {number position : Nat}

/-- Only the item that is appended is new. -/
theorem get?_of_get?_append (stored : (table.append item).get? number = some other) :
    table.get? number = some other ∨ number = table.items.size + 1 ∧ other = item := by
  cases number with
  | zero => cases stored
  | succ position =>
    simp only [get?, items_append, Array.getElem?_push] at stored
    split at stored
    · rename_i last
      cases stored
      exact .inr ⟨by rw [last], rfl⟩
    · exact .inl stored

section Search

variable [DecidableEq α] {key : UInt64} {link : Link}

/-- A search looks at the first item of the rest of a chain, and then goes on behind it. -/
theorem search_succ (found : table.chains.links[position]? = some link) :
    table.search key item (position + 1) =
      if link.key = key ∧ table.items[position]? = some item then some (position + 1)
      else table.search key item link.next := by
  rw [search]
  split
  · simp_all
  · simp_all

/-- A number that is found belongs to the item that was looked for. -/
theorem get?_of_search {start : Nat} (found : table.search key item start = some number) :
    table.get? number = some item := by
  induction start using Nat.strong_induction_on with
  | _ start inductionHypothesis =>
    cases start with
    | zero => simp [search] at found
    | succ position =>
      cases linked : table.chains.links[position]? with
      | none =>
        rw [search] at found
        split at found <;> simp_all
      | some link =>
        rw [search_succ linked] at found
        split at found
        · rename_i hit
          cases found
          exact hit.2
        · exact inductionHypothesis _ (Nat.lt_succ_of_le (table.chains.descends linked)) found

/-- A search does not pass over an item with the key. -/
theorem search_ne_none_of_path {start : Nat} {numbers : List Nat}
    (path : table.chains.Path start numbers) (member : position + 1 ∈ numbers)
    (sameKey : table.chains.keys[position]? = some key)
    (stored : table.items[position]? = some item) : table.search key item start ≠ none := by
  induction path with
  | nil => cases member
  | cons found _ inductionHypothesis =>
    rw [search_succ found]
    split
    · simp
    · rename_i passed
      rcases List.mem_cons.mp member with same | member
      · cases same
        rw [Chains.keys, Array.getElem?_map, found] at sameKey
        exact absurd ⟨Option.some.inj sameKey, stored⟩ passed
      · exact inductionHypothesis member

end Search

/-- Every stored item is linked, with its key, in the chain of its bucket, and no item is
stored under two numbers. -/
structure Lawful (table : InternTable α) : Prop where
  keyed : table.chains.keys = table.items.map table.key
  complete : table.chains.linked = table.chains.keys.size
  threaded : table.chains.Threaded table.mask
  distinct : ∀ {number other : Nat} {item : α}, table.get? number = some item →
    table.get? other = some item → number = other

theorem lawful_empty (key : α → UInt64) (bits : Nat) : (empty key bits).Lawful := by
  refine ⟨by simp [empty, Chains.keys_empty], (congrArg Array.size Chains.keys_empty).symm,
    Chains.threaded_of_unlinked rfl, ?_⟩
  intro number other item stored
  cases number <;> simp [empty, get?] at stored

namespace Lawful

theorem key_eq (lawful : table.Lawful) (stored : table.get? (position + 1) = some item) :
    table.chains.keys[position]? = some (table.key item) := by
  rw [lawful.keyed, Array.getElem?_map, show table.items[position]? = some item from stored,
    Option.map_some]

/-- The chain of a bucket has the numbers of the stored items whose keys select it. -/
theorem exists_path (lawful : table.Lawful) (bucket : UInt64) :
    ∃ numbers, table.chains.Path (table.chains.head bucket) numbers ∧
      ∀ number, number ∈ numbers ↔
        ∃ item, table.get? number = some item ∧ table.key item &&& table.mask = bucket := by
  obtain ⟨numbers, path, members⟩ := lawful.threaded bucket
  refine ⟨numbers, path, fun number => (members number).trans ⟨?_, ?_⟩⟩
  · rintro ⟨position, rfl, -, key, isKey, selected⟩
    rw [lawful.keyed, Array.getElem?_map, Option.map_eq_some_iff] at isKey
    obtain ⟨item, stored, rfl⟩ := isKey
    exact ⟨item, stored, selected⟩
  · rintro ⟨item, stored, selected⟩
    cases number with
    | zero => cases stored
    | succ position =>
      have isKey := lawful.key_eq stored
      obtain ⟨inside, -⟩ := Array.getElem?_eq_some_iff.mp isKey
      exact ⟨position, rfl, lawful.complete ▸ inside, _, isKey, selected⟩

/-- Doubling the buckets links every item anew. -/
theorem grow (lawful : table.Lawful) : table.grow.Lawful :=
  ⟨Chains.keys_relink.trans lawful.keyed,
    Chains.linked_relink.trans (congrArg Array.size Chains.keys_relink).symm,
    Chains.threaded_relink, lawful.distinct⟩

/-- An item that is not stored may be appended. -/
theorem append (lawful : table.Lawful) (absent : ∀ number, table.get? number ≠ some item) :
    (table.append item).Lawful := by
  have pushed : (table.chains.push (table.key item)).keys = table.chains.keys.push (table.key item) :=
    Chains.keys_push _
  refine ⟨?keyed, ?complete, ?threaded, fun {number other kept} stored otherStored => ?distinct⟩
  case keyed =>
    refine Chains.keys_linkNext.trans (pushed.trans ?_)
    rw [lawful.keyed, items_append, Array.map_push]
    rfl
  case complete =>
    have found : (table.chains.push (table.key item)).links[table.chains.linked]? =
        some ⟨table.key item, 0⟩ := by
      simp [Chains.push, lawful.complete, Chains.size_keys]
    refine (Chains.linked_linkNext found).trans ?_
    refine Eq.trans ?_ (congrArg Array.size (Chains.keys_linkNext.trans pushed)).symm
    rw [Array.size_push, ← lawful.complete]
    rfl
  case threaded =>
    have known : table.chains.linked ≤ table.chains.links.size := by
      rw [lawful.complete, Chains.size_keys]
    exact (lawful.threaded.push known _).linkNext
  case distinct =>
    rcases get?_of_get?_append stored with old | ⟨rfl, rfl⟩
    · rcases get?_of_get?_append otherStored with otherOld | ⟨rfl, rfl⟩
      · exact lawful.distinct old otherOld
      · exact absurd old (absent number)
    · rcases get?_of_get?_append otherStored with otherOld | ⟨rfl, -⟩
      · exact absurd otherOld (absent other)
      · rfl

theorem rebalance (lawful : table.Lawful) : table.rebalance.Lawful := by
  unfold InternTable.rebalance
  split
  · exact lawful.grow
  · exact lawful

section Find

variable [DecidableEq α]

/-- An item is found exactly under the number it is stored under. -/
theorem find?_eq_some_iff (lawful : table.Lawful) :
    table.find? item = some number ↔ table.get? number = some item := by
  refine ⟨get?_of_search, fun stored => ?_⟩
  cases number with
  | zero => cases stored
  | succ position =>
    obtain ⟨numbers, path, members⟩ := lawful.exists_path (table.key item &&& table.mask)
    have found : table.find? item ≠ none :=
      search_ne_none_of_path path ((members _).mpr ⟨item, stored, rfl⟩) (lawful.key_eq stored) stored
    obtain ⟨other, isOther⟩ := Option.ne_none_iff_exists'.mp found
    rw [isOther, lawful.distinct (get?_of_search isOther) stored]

/-- An item that is not found is not stored. -/
theorem absent_of_find?_eq_none (lawful : table.Lawful) (missing : table.find? item = none)
    (number : Nat) : table.get? number ≠ some item := by
  rw [Ne, ← lawful.find?_eq_some_iff, missing]
  simp

/-- Storing an item keeps a table lawful. -/
theorem put (lawful : table.Lawful) (item : α) : (table.put item).2.Lawful := by
  cases found : table.find? item with
  | some number => rwa [put_of_found found]
  | none =>
    rw [put_of_missing found]
    exact (lawful.append (lawful.absent_of_find?_eq_none found)).rebalance

end Find

end Lawful

section Put

variable [DecidableEq α]

/-- Numbers that were given out keep their items. -/
theorem get?_put_of_get? (stored : table.get? number = some other) :
    (table.put item).2.get? number = some other := by
  cases number with
  | zero => simp [get?] at stored
  | succ position =>
    simp only [get?] at stored ⊢
    rcases items_put table item with same | pushed
    · rw [same, stored]
    · obtain ⟨inside, -⟩ := Array.getElem?_eq_some_iff.mp stored
      rw [pushed, Array.getElem?_push_lt inside, ← stored, Array.getElem?_eq_getElem inside]

/-- The returned number belongs to the item. -/
theorem get?_put (table : InternTable α) (item : α) :
    (table.put item).2.get? (table.put item).1 = some item := by
  cases found : table.find? item with
  | some number =>
    rw [put_of_found found]
    exact get?_of_search found
  | none =>
    rw [put_of_missing found]
    simp [get?]

/-- Only the item itself is new. -/
theorem get?_of_get?_put (stored : (table.put item).2.get? number = some other) :
    table.get? number = some other ∨ number = (table.put item).1 ∧ other = item := by
  cases found : table.find? item with
  | some known =>
    rw [put_of_found found] at stored
    exact .inl stored
  | none =>
    rw [put_of_missing found] at stored ⊢
    apply get?_of_get?_append
    cases number with
    | zero => cases stored
    | succ position => simpa [get?] using stored

end Put

end InternTable

end Clausal
