/-!
# Totals

The sum of a number over the items of a list. Measures of expressions are built
from totals over operands.
-/

namespace Clausal

variable {α : Type}

/-- The sum of `size` over a list. -/
def total (size : α → Nat) : List α → Nat
  | [] => 0
  | item :: items => size item + total size items

@[simp] theorem total_nil (size : α → Nat) : total size [] = 0 := rfl

@[simp] theorem total_cons (size : α → Nat) (item : α) (items : List α) :
    total size (item :: items) = size item + total size items := rfl

/-- The total of two lists, one behind the other, is the sum of their totals. -/
theorem total_append (size : α → Nat) (left right : List α) :
    total size (left ++ right) = total size left + total size right := by
  induction left with
  | nil => simp
  | cons item items inductionHypothesis =>
    simp only [List.cons_append, total_cons, inductionHypothesis]
    omega

/-- The total over the images of items is a total over the items. -/
theorem total_map {β : Type} (size : β → Nat) (image : α → β) (items : List α) :
    total size (items.map image) = total (fun item => size (image item)) items := by
  induction items with
  | nil => rfl
  | cons item items inductionHypothesis =>
    simp only [List.map_cons, total_cons, inductionHypothesis]

/-- Membership proofs attached to the items do not change a total. -/
theorem total_attach (size : α → Nat) (items : List α) :
    total (fun item : { item // item ∈ items } => size item.1) items.attach = total size items := by
  rw [← total_map size Subtype.val, List.attach_map_subtype_val]

end Clausal
