import Mathlib
import Clausal.Proofs.Interning

/-!
# Numbers are ranks of first occurrences

What a table is after any sequence of insertions: it stores the distinct items in the
order of their first insertion (`firsts`), an item is found under its place in that
order, and every insertion returns that place and leaves the earlier ones alone. Every
chain ends and has the items of its bucket, and the buckets are a power of two and no
fewer than the items.

One insertion keeps all of this (`Holds.put`), for any key.
-/

namespace Clausal

variable {α : Type} [DecidableEq α] {item : α} {items : List α}

section Firsts

/-- The distinct items of a list, in the order of their first occurrence. -/
def firsts (items : List α) : List α :=
  items.reverse.dedup.reverse

theorem nodup_firsts : (firsts items).Nodup :=
  List.nodup_reverse.mpr (List.nodup_dedup _)

theorem mem_firsts : item ∈ firsts items ↔ item ∈ items := by
  simp [firsts]

theorem firsts_append_of_mem (known : item ∈ items) : firsts (items ++ [item]) = firsts items := by
  rw [firsts, List.reverse_concat', List.dedup_cons_of_mem (List.mem_reverse.mpr known), firsts]

theorem firsts_append_of_notMem (new : item ∉ items) :
    firsts (items ++ [item]) = firsts items ++ [item] := by
  rw [firsts, List.reverse_concat', List.dedup_cons_of_notMem (by simpa using new), List.reverse_cons,
    firsts]

/-- Items that occurred before change nothing. -/
theorem firsts_append_of_forall_mem {more : List α} (known : ∀ item ∈ more, item ∈ items) :
    firsts (items ++ more) = firsts items := by
  induction more generalizing items with
  | nil => rw [List.append_nil]
  | cons item more inductionHypothesis =>
    rw [List.forall_mem_cons] at known
    rw [List.append_cons, inductionHypothesis fun next member => List.mem_append_left _ (known.2 next member),
      firsts_append_of_mem known.1]

/-- Selected items occur first in the order in which all do. -/
theorem firsts_filter (selected : α → Bool) (items : List α) :
    firsts (items.filter selected) = (firsts items).filter selected := by
  induction items using List.reverseRecOn with
  | nil => rfl
  | append_singleton items item inductionHypothesis =>
    by_cases known : item ∈ items
    · rw [firsts_append_of_mem known, ← inductionHypothesis, List.filter_append]
      refine firsts_append_of_forall_mem fun next member => ?_
      obtain ⟨inside, isSelected⟩ := List.mem_filter.mp member
      rw [List.mem_singleton.mp inside] at isSelected ⊢
      exact List.mem_filter.mpr ⟨known, isSelected⟩
    · rw [firsts_append_of_notMem known, List.filter_append, List.filter_append, ← inductionHypothesis]
      cases isSelected : selected item with
      | true =>
        have missing : item ∉ items.filter selected := fun member => known (List.mem_filter.mp member).1
        simp only [List.filter_cons, isSelected, List.filter_nil, if_true]
        exact firsts_append_of_notMem missing
      | false => simp [isSelected]

end Firsts

namespace InternTable

variable {table : InternTable α} {stored : List α} {bits number : Nat}

/-- Store items one after the other. -/
def putAll (table : InternTable α) (items : List α) : InternTable α :=
  items.foldl (fun table item => (table.put item).2) table

section Buckets

omit [DecidableEq α]

/-- The mask of a power of two that words count selects as many buckets. -/
theorem maskOf_toNat {count : Nat} (positive : 0 < count) (small : count ≤ UInt64.size) :
    (maskOf count).toNat + 1 = count := by
  have inside : count - 1 < UInt64.size := by omega
  rw [maskOf, Nat.toUInt64_eq, UInt64.toNat_ofNat_of_lt' inside]
  omega

/-- The buckets of a table are a power of two, are selected by the mask, and are no fewer
than the items. They are doubled only for want of buckets. -/
structure Balanced (bits : Nat) (table : InternTable α) : Prop where
  power : ∃ exponent, table.bucketCount = 2 ^ exponent
  masked : table.mask = maskOf table.bucketCount
  room : table.size ≤ table.bucketCount
  thrifty : table.bucketCount ≤ 2 ^ bits ∨ table.bucketCount < 2 * table.size

theorem balanced_empty (key : α → UInt64) (bits : Nat) : (empty key bits).Balanced bits :=
  ⟨⟨bits, rfl⟩, rfl, Nat.zero_le _, .inl le_rfl⟩

/-- An item more may double the buckets. -/
theorem Balanced.append (balanced : table.Balanced bits) (item : α) :
    (table.append item).rebalance.Balanced bits := by
  obtain ⟨⟨exponent, power⟩, masked, room, thrifty⟩ := balanced
  have positive : 0 < table.bucketCount := power ▸ Nat.two_pow_pos exponent
  unfold rebalance
  split
  · rename_i crowded
    rw [gt_iff_lt, ← size, size_append, bucketCount_append] at crowded
    refine ⟨⟨exponent + 1, ?power⟩, rfl, ?room, .inr ?thrifty⟩
    case power => rw [bucketCount_grow, bucketCount_append, power, pow_succ]
    case room =>
      rw [size_grow, size_append, bucketCount_grow, bucketCount_append]
      omega
    case thrifty =>
      rw [size_grow, size_append, bucketCount_grow, bucketCount_append]
      omega
  · rename_i roomy
    rw [gt_iff_lt, ← size] at roomy
    refine ⟨⟨exponent, power⟩, masked, not_lt.mp roomy, thrifty.imp_right fun few => ?_⟩
    rw [size_append, bucketCount_append]
    omega

/-- As long as words count the items, the mask is one less than the number of buckets. -/
theorem Balanced.mask_toNat (balanced : table.Balanced bits) (inRange : bits ≤ 31)
    (counted : table.size ≤ UInt64.size) : table.mask.toNat + 1 = table.bucketCount := by
  obtain ⟨⟨exponent, power⟩, masked, -, thrifty⟩ := balanced
  have small : exponent ≤ 64 := by
    have low : (2 : Nat) ^ bits ≤ 2 ^ 31 := Nat.pow_le_pow_right (by decide) inRange
    have limit : (2 : Nat) ^ exponent < 2 ^ 65 := by
      rw [← power]
      rcases thrifty with few | few
      · omega
      · have : UInt64.size = 2 ^ 64 := rfl
        omega
    exact Nat.lt_succ_iff.mp ((Nat.pow_lt_pow_iff_right (by decide)).mp limit)
  rw [masked]
  refine maskOf_toNat (power ▸ Nat.two_pow_pos exponent) ?_
  rw [power]
  exact Nat.pow_le_pow_right (by decide) small

end Buckets

section Runs

/-- What a table is after the items of a list were stored in it, one after the other. -/
structure Holds (table : InternTable α) (key : α → UInt64) (bits : Nat) (stored : List α) : Prop where
  keyed : table.key = key
  lawful : table.Lawful
  balanced : table.Balanced bits
  items : table.items.toList = firsts stored

namespace Holds

variable {key : α → UInt64} (holds : table.Holds key bits stored)
include holds

/-- The items are numbered in the order of their first insertion. -/
theorem get?_eq_some_iff :
    table.get? number = some item ↔ item ∈ stored ∧ number = (firsts stored).idxOf item + 1 := by
  have entry : ∀ position, table.get? (position + 1) = (firsts stored)[position]? := by
    intro position
    rw [← holds.items, Array.getElem?_toList]
    rfl
  constructor
  · intro found
    cases number with
    | zero => cases found
    | succ position =>
      rw [entry] at found
      obtain ⟨inside, rfl⟩ := List.getElem?_eq_some_iff.mp found
      exact ⟨mem_firsts.mp (List.getElem_mem inside), by rw [nodup_firsts.idxOf_getElem]⟩
  · rintro ⟨known, rfl⟩
    rw [entry, List.getElem?_idxOf (mem_firsts.mpr known)]

theorem find?_eq_some_iff :
    table.find? item = some number ↔ item ∈ stored ∧ number = (firsts stored).idxOf item + 1 :=
  holds.lawful.find?_eq_some_iff.trans holds.get?_eq_some_iff

theorem find?_eq_none_iff : table.find? item = none ↔ item ∉ stored := by
  rw [Option.eq_none_iff_forall_ne_some]
  simp only [Ne, holds.find?_eq_some_iff]
  exact ⟨fun absent known => absent _ ⟨known, rfl⟩, fun new _ found => new found.1⟩

/-- One more insertion: the table holds one more item, and the number of the item is
returned. -/
theorem put (item : α) :
    (table.put item).2.Holds key bits (stored ++ [item]) ∧
      (table.put item).1 = (firsts (stored ++ [item])).idxOf item + 1 := by
  by_cases known : item ∈ stored
  · have found := holds.find?_eq_some_iff.mpr ⟨known, rfl⟩
    have same := firsts_append_of_mem known
    rw [put_of_found found, same]
    exact ⟨⟨holds.keyed, holds.lawful, holds.balanced, holds.items.trans same.symm⟩, rfl⟩
  · have missing := holds.find?_eq_none_iff.mpr known
    have longer := firsts_append_of_notMem known
    have lawful := holds.lawful.put item
    rw [put_of_missing missing] at lawful ⊢
    refine ⟨⟨?keyed, lawful, holds.balanced.append item, ?items⟩, ?number⟩
    case keyed => exact (key_rebalance _).trans holds.keyed
    case items => rw [items_rebalance, items_append, Array.toList_push, holds.items, longer]
    case number =>
      rw [longer, List.idxOf_append_of_notMem (mt mem_firsts.mp known), List.idxOf_cons_self, ← holds.items]
      simp

end Holds

theorem holds_empty (key : α → UInt64) (bits : Nat) : (empty key bits).Holds key bits [] :=
  ⟨rfl, lawful_empty key bits, balanced_empty key bits, rfl⟩

/-- Insertions one after the other. -/
theorem holds_putAll (key : α → UInt64) (bits : Nat) (stored : List α) :
    ((empty key bits).putAll stored).Holds key bits stored := by
  induction stored using List.reverseRecOn with
  | nil => exact holds_empty key bits
  | append_singleton stored item inductionHypothesis =>
    rw [putAll, List.foldl_append]
    exact (inductionHypothesis.put item).1

end Runs

/-- What a table does after the items of a list were stored in it. -/
structure Interns (table : InternTable α) (key : α → UInt64) (stored : List α) : Prop where
  /-- An item is found exactly if it was stored, and then under its rank. -/
  found : ∀ item number, table.find? item = some number ↔
    item ∈ stored ∧ number = (firsts stored).idxOf item + 1
  /-- The number under which an item is found is the number of that item. -/
  value : ∀ item number, table.find? item = some number → table.get number = .ok item
  /-- An insertion returns the rank of its item. -/
  returned : ∀ item, (table.put item).1 = (firsts (stored ++ [item])).idxOf item + 1
  /-- An insertion changes neither the numbers nor the items that were stored. -/
  kept : ∀ item number old, table.get number = .ok old →
    (table.put item).2.get number = .ok old ∧ (table.put item).2.find? old = some number
  /-- No item is stored twice. -/
  once : table.items.toList.Nodup
  /-- Every chain ends, with the numbers of the items of its bucket on the way. -/
  chained : ∀ bucket, ∃ numbers, table.chains.Path (table.chains.head bucket) numbers ∧
    numbers.Pairwise (· > ·) ∧ ∀ number, number ∈ numbers ↔
      ∃ item, table.get number = .ok item ∧ key item &&& table.mask = bucket
  /-- The buckets are a power of two. -/
  power : ∃ exponent, table.bucketCount = 2 ^ exponent
  /-- As long as a word counts the items, the mask is one less than the number of buckets. -/
  masked : table.size ≤ UInt64.size → table.mask.toNat + 1 = table.bucketCount
  /-- There are no fewer buckets than items. -/
  room : table.size ≤ table.bucketCount

theorem Holds.interns {key : α → UInt64} (holds : table.Holds key bits stored) (inRange : bits ≤ 31) :
    table.Interns key stored := by
  have lawful := holds.lawful
  refine ⟨fun item number => holds.find?_eq_some_iff, fun item number found => ?value,
    fun item => (holds.put item).2, fun item number old given => ?kept, holds.items ▸ nodup_firsts,
    fun bucket => ?chained, holds.balanced.power, holds.balanced.mask_toNat inRange,
    holds.balanced.room⟩
  case value => exact get_eq_ok_iff.mpr (lawful.find?_eq_some_iff.mp found)
  case kept =>
    have later : (table.put item).2.get? number = some old :=
      get?_put_of_get? (get_eq_ok_iff.mp given)
    exact ⟨get_eq_ok_iff.mpr later, (lawful.put item).find?_eq_some_iff.mpr later⟩
  case chained =>
    obtain ⟨numbers, path, members⟩ := lawful.exists_path bucket
    refine ⟨numbers, path, path.descending, fun number => ?_⟩
    simp only [get_eq_ok_iff, ← holds.keyed]
    exact members number

/-- A table interns the items that are stored in it, in any order and with any key, from
any number of buckets on. -/
theorem putAll_interns (key : α → UInt64) {bits : Nat} (inRange : bits ≤ 31) (stored : List α) :
    ∃ start, empty? key bits = .ok start ∧ (start.putAll stored).Interns key stored :=
  ⟨empty key bits, if_pos inRange, (holds_putAll key bits stored).interns inRange⟩

/-- Items that all have one key are told apart, and keep their numbers while the buckets
are doubled twice. -/
theorem putAll_interns_collisions : ∃ start : InternTable Nat, empty? (fun _ => 0) 0 = .ok start ∧
    (start.putAll [5, 7, 5, 9]).find? 9 = some 3 ∧ (start.putAll [5, 7, 5, 9]).find? 8 = none ∧
      ((start.putAll [5, 7, 5, 9]).put 7).1 = 2 ∧
        ((start.putAll [5, 7, 5, 9]).put 8).2.get 1 = .ok 5 := by
  obtain ⟨start, made, interns⟩ :=
    putAll_interns (fun _ : Nat => 0) (Nat.zero_le 31) [5, 7, 5, 9]
  have known : ∀ item number, item ∈ [5, 7, 5, 9] → (firsts [5, 7, 5, 9]).idxOf item + 1 = number →
      (start.putAll [5, 7, 5, 9]).find? item = some number :=
    fun item number member rank => (interns.found item number).mpr ⟨member, rank.symm⟩
  refine ⟨start, made, known 9 3 (by decide) (by decide), ?missing, ?again, ?kept⟩
  case missing =>
    refine Option.eq_none_iff_forall_ne_some.mpr fun number found => ?_
    exact absurd ((interns.found 8 number).mp found).1 (by decide)
  case again =>
    rw [interns.returned]
    decide
  case kept => exact (interns.kept 8 1 5 (interns.value 5 1 (known 5 1 (by decide) (by decide)))).1

end InternTable

end Clausal
