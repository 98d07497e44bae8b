import Mathlib
import Ucore.Libs.List

/-!
# `Ucore.Mm.Page`: page descriptors

`struct Page` of `kern/mm/memlayout.h`, as far as the page managers read and write it. The
descriptors are the array `pages[]`; a page is its index in it, so a pointer comparison is a
comparison of indices. The field `page_link` is not here: the links of all descriptors together are
the link table of the free lists (`Ucore.Libs.List`).

`flags` has two bits in use, `PG_reserved` and `PG_property`. `property` and `nr_free` are `unsigned
int`, so every value stored there goes through `uint`.

Each write to a descriptor is an update of the whole array at one index: `set_page_ref`, the
assignments to `flags` and `property`, and the two macros for `PG_property`. The lemmas say for each
of them what it leaves alone, and for which pages the bit is set afterwards. They are all that the
proofs about the managers know of descriptors, so that these never unfold an update:

* a write to one field leaves the other two (`setProperty_flags`, `setFlags_property` and so on);
* a write to a field changes it on one page only (`setProperty_property`, `setFlags_flags`);
* `PG_property` is set on the page where it has been set and on those where it was before
  (`setPageProperty_flag`), and the same for clearing it (`clearPageProperty_flag`).

`FreeNode` is a node of a free list, with any type of list heads: the first-fit and the best-fit
manager have one head, and the buddy manager one for each order.
-/

set_option autoImplicit false

namespace Ucore.Mm

open Ucore.Lib

/-- The value an `unsigned int` field keeps. -/
def uint (n : Nat) : Nat := n % 2 ^ 32

/-- A number that fits an `unsigned int` is kept. -/
theorem uint_of_lt {n : Nat} (h : n < 2 ^ 32) : uint n = n := Nat.mod_eq_of_lt h

/-- The two bits of `flags` in use. -/
structure PageFlags where
  reserved : Bool
  property : Bool
  deriving DecidableEq, Repr

/-- `flags = 0`. -/
def PageFlags.zero : PageFlags := ⟨false, false⟩

/-- `struct Page`: `ref`, `flags` and `property`. -/
structure Page where
  ref : Int
  flags : PageFlags
  property : Nat
  deriving DecidableEq, Repr

/-- A node of a free list: the list head `head k` of the `k`-th free area, or the
`page_link` of a page. -/
inductive FreeNode (ι : Type)
  | head (k : ι)
  | page (p : Nat)
  deriving DecidableEq, Repr

/-- The array `pages[]`. -/
abbrev Pages := Nat → Page

namespace Pages

/-- `set_page_ref`. -/
def setPageRef (pages : Pages) (p : Nat) (val : Int) : Pages :=
  Function.update pages p { pages p with ref := val }

/-- `page->flags = flags`. -/
def setFlags (pages : Pages) (p : Nat) (flags : PageFlags) : Pages :=
  Function.update pages p { pages p with flags := flags }

/-- `page->property = n`, an `unsigned int`. -/
def setProperty (pages : Pages) (p n : Nat) : Pages :=
  Function.update pages p { pages p with property := uint n }

/-- `SetPageProperty`. -/
def setPageProperty (pages : Pages) (p : Nat) : Pages :=
  pages.setFlags p { (pages p).flags with property := true }

/-- `ClearPageProperty`. -/
def clearPageProperty (pages : Pages) (p : Nat) : Pages :=
  pages.setFlags p { (pages p).flags with property := false }

variable (pages : Pages) (p q n : Nat)

/-- A write to `property` leaves the flags. -/
@[simp] theorem setProperty_flags : (pages.setProperty p n q).flags = (pages q).flags := by
  unfold setProperty
  by_cases h : q = p
  · subst h; simp
  · simp [h]

/-- A write to `property` changes one page. -/
theorem setProperty_property :
    (pages.setProperty p n q).property = if q = p then uint n else (pages q).property := by
  unfold setProperty
  by_cases h : q = p
  · subst h; simp
  · simp [h]

/-- A write to the flags leaves `property`. -/
@[simp] theorem setFlags_property (f : PageFlags) :
    (pages.setFlags p f q).property = (pages q).property := by
  unfold setFlags
  by_cases h : q = p
  · subst h; simp
  · simp [h]

/-- A write to the flags changes one page. -/
theorem setFlags_flags (f : PageFlags) :
    (pages.setFlags p f q).flags = if q = p then f else (pages q).flags := by
  unfold setFlags
  by_cases h : q = p
  · subst h; simp
  · simp [h]

/-- A write to the count leaves the flags. -/
@[simp] theorem setPageRef_flags (val : Int) :
    (pages.setPageRef p val q).flags = (pages q).flags := by
  unfold setPageRef
  by_cases h : q = p
  · subst h; simp
  · simp [h]

/-- A write to the count leaves `property`. -/
@[simp] theorem setPageRef_property (val : Int) :
    (pages.setPageRef p val q).property = (pages q).property := by
  unfold setPageRef
  by_cases h : q = p
  · subst h; simp
  · simp [h]

/-- Setting `PG_property` leaves the field `property`. -/
@[simp] theorem setPageProperty_property :
    (pages.setPageProperty p q).property = (pages q).property := setFlags_property ..

/-- Clearing `PG_property` leaves the field `property`. -/
@[simp] theorem clearPageProperty_property :
    (pages.clearPageProperty p q).property = (pages q).property := setFlags_property ..

/-- Setting `PG_property` leaves `PG_reserved`. -/
@[simp] theorem setPageProperty_reserved :
    (pages.setPageProperty p q).flags.reserved = (pages q).flags.reserved := by
  rw [setPageProperty, setFlags_flags]
  split
  · rename_i h; rw [h]
  · rfl

/-- Clearing `PG_property` leaves `PG_reserved`. -/
@[simp] theorem clearPageProperty_reserved :
    (pages.clearPageProperty p q).flags.reserved = (pages q).flags.reserved := by
  rw [clearPageProperty, setFlags_flags]
  split
  · rename_i h; rw [h]
  · rfl

/-- Which pages have `PG_property` when it has been set on one. -/
theorem setPageProperty_flag :
    (pages.setPageProperty p q).flags.property = true ↔
      q = p ∨ (pages q).flags.property = true := by
  rw [setPageProperty, setFlags_flags]
  by_cases h : q = p <;> simp [h]

/-- Which pages have `PG_property` when it has been cleared on one. -/
theorem clearPageProperty_flag :
    (pages.clearPageProperty p q).flags.property = true ↔
      q ≠ p ∧ (pages q).flags.property = true := by
  rw [clearPageProperty, setFlags_flags]
  by_cases h : q = p <;> simp [h]

end Pages

end Ucore.Mm
