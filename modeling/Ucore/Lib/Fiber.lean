import Mathlib

/-!
# `Ucore.Lib.Fiber`: counting the references to an object

A reference count is right when it is the number of places that name the object. The places are the
arguments of a function into `Option`, a place that names nothing has the value `none`, and
`fiberCard f b` is the number of places that name `b`. Changing one place changes the count of the
object it named and of the object it names (`fiberCard_update`), and a count of one means a sole
owner (`fiberCard_le_one_iff`).

`fiberCard_eq_sum` is the count as a sum over the places, for the proofs in which several places
change at once. All statements ask that there are finitely many places.
-/

set_option autoImplicit false

namespace Ucore.Lib

variable {α β : Type} [Fintype α] [DecidableEq β]

/-- How many places of `f` name `b`. -/
def fiberCard (f : α → Option β) (b : β) : Nat :=
  (Finset.univ.filter fun a => f a = some b).card

/-- The count as a sum over the places. -/
theorem fiberCard_eq_sum (f : α → Option β) (b : β) :
    fiberCard f b = ∑ a, if f a = some b then 1 else 0 := by
  rw [fiberCard, Finset.card_filter]

/-- One place changes: what it named loses a reference, and what it names gains one. -/
theorem fiberCard_update [DecidableEq α] (f : α → Option β) (x : α) (y : Option β) (b : β) :
    fiberCard (Function.update f x y) b + (if f x = some b then 1 else 0) =
      fiberCard f b + (if y = some b then 1 else 0) := by
  have hx : x ∈ (Finset.univ : Finset α) := Finset.mem_univ x
  have hrest : ∑ a ∈ Finset.univ.erase x, (if Function.update f x y a = some b then 1 else 0) =
      ∑ a ∈ Finset.univ.erase x, (if f a = some b then 1 else 0) := by
    apply Finset.sum_congr rfl
    intro a ha
    rw [Function.update_of_ne (Finset.ne_of_mem_erase ha)]
  rw [fiberCard_eq_sum, fiberCard_eq_sum, ← Finset.add_sum_erase _ _ hx,
    ← Finset.add_sum_erase _ (fun a => if f a = some b then 1 else 0) hx, hrest,
    Function.update_self]
  omega

/-- A fiber is not empty exactly when some element is sent to the value. -/
theorem fiberCard_pos_iff {f : α → Option β} {b : β} :
    0 < fiberCard f b ↔ ∃ a, f a = some b := by
  simp [fiberCard, Finset.card_pos, Finset.filter_nonempty_iff]

/-- At most one reference: whoever names the object is its sole owner. -/
theorem fiberCard_le_one_iff {f : α → Option β} {b : β} :
    fiberCard f b ≤ 1 ↔ ∀ a, f a = some b → ∀ a', f a' = some b → a = a' := by
  simp [fiberCard, Finset.card_le_one]

end Ucore.Lib
