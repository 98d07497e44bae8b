import Ucore.Lib.Links

/-!
# `Ucore.Libs.List`: the list library of the kernel

`libs/list.h` is the intrusive circular list every subsystem uses: the free lists of the page
managers, the wait queues, the run queue, the process list. Each function is the definition of the
same name here, over the link table `Links` of all nodes. The lemmas say what each one does to a
list that is well formed (`Ring`), at the place where the code calls it.

A node belongs to one list at a time. `list_del` leaves the two pointers of the node as they were,
and `list_del_init` makes it a list of its own, which is how the scheduler sees whether a process is
in the run queue.
-/

set_option autoImplicit false

namespace Ucore.Libs

open Ucore.Lib
open Ucore.Lib.Links

variable {α : Type} [DecidableEq α]

/-- `list_init`. -/
def listInit (l : Links α) (elm : α) : Links α := l.init elm

/-- `list_add_before`. -/
def listAddBefore (l : Links α) (listelm elm : α) : Links α :=
  l.insertBetween elm (l.prev listelm) listelm

/-- `list_add_after`. -/
def listAddAfter (l : Links α) (listelm elm : α) : Links α :=
  l.insertBetween elm listelm (l.next listelm)

/-- `list_add`. -/
def listAdd (l : Links α) (listelm elm : α) : Links α := listAddAfter l listelm elm

/-- `list_del`. The node itself keeps its two pointers. -/
def listDel (l : Links α) (listelm : α) : Links α := l.unlink listelm

/-- `list_del_init`. -/
def listDelInit (l : Links α) (listelm : α) : Links α := listInit (listDel l listelm) listelm

/-- `list_empty`. -/
def listEmpty (l : Links α) (list : α) : Bool := l.next list = list

/-- Adding after the head puts the node first. -/
theorem ring_listAdd_head {l : Links α} {h e : α} {xs : List α} (r : l.Ring h xs)
    (he : e ∉ h :: xs) : (listAdd l h e).Ring h (e :: xs) := by
  unfold listAdd listAddAfter
  rw [r.next_head]
  have r' : l.Ring h ([] ++ xs) := r
  exact r'.insertBetween he

/-- Adding after the last node of the part `ys` puts the node behind that part. -/
theorem ring_listAdd {l : Links α} {h e : α} {ys zs : List α} (r : l.Ring h (ys ++ zs))
    (he : e ∉ h :: (ys ++ zs)) : (listAdd l (ys.getLastD h) e).Ring h (ys ++ e :: zs) := by
  unfold listAdd listAddAfter
  rw [r.next_getLastD]
  exact r.insertBetween he

/-- Adding before the first node of the part `zs` puts the node in front of that part. -/
theorem ring_listAddBefore {l : Links α} {h e : α} {ys zs : List α} (r : l.Ring h (ys ++ zs))
    (he : e ∉ h :: (ys ++ zs)) :
    (listAddBefore l (zs.headD h) e).Ring h (ys ++ e :: zs) := by
  unfold listAddBefore
  rw [r.prev_headD]
  exact r.insertBetween he

/-- Deleting a node of a list. -/
theorem ring_listDel {l : Links α} {h e : α} {ys zs : List α} (r : l.Ring h (ys ++ e :: zs)) :
    (listDel l e).Ring h (ys ++ zs) := r.unlink

/-- The emptiness test reads the list. -/
theorem listEmpty_iff {l : Links α} {h : α} {xs : List α} (r : l.Ring h xs) :
    listEmpty l h = true ↔ xs = [] := by
  rw [listEmpty, decide_eq_true_eq]
  exact r.next_head_eq_iff

end Ucore.Libs
