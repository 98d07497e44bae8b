import Ucore.Mm.PageTable

/-!
# `Ucore.Mm.Vmm`: virtual memory areas

`struct mm_struct` and `struct vma_struct` of `kern/mm/vmm.h`, and the functions of `kern/mm/vmm.c`
that lab 5 and lab 8 share. `mmap_list` is the list of areas in order, a pointer to an area is the
area, and the page directory is the address space `κ` the structure belongs to. `sm_priv` is written
and never read.

`find_vma` looks at `mmap_cache` first and then through the list, and leaves what it finds in the
cache. `insert_vma_struct` puts an area behind the last one that does not start above it, and
asserts that it does not overlap with its two neighbours (`checkVmaOverlap`).
-/

set_option autoImplicit false

namespace Ucore.Mm

open Ucore.Lib

/-- `struct vma_struct`: the bounds and the flags. -/
structure Vma where
  vmStart : Nat
  vmEnd : Nat
  vmFlags : Nat
  deriving DecidableEq, Repr

/-- `struct mm_struct`: the areas, the one found last, and their number. -/
structure MmStruct where
  mmapList : List Vma
  mmapCache : Option Vma
  mapCount : Nat
  deriving DecidableEq, Repr

/-- The address lies in the area. -/
def Vma.Contains (vma : Vma) (addr : Nat) : Prop := vma.vmStart ≤ addr ∧ addr < vma.vmEnd

instance (vma : Vma) (addr : Nat) : Decidable (vma.Contains addr) :=
  inferInstanceAs (Decidable (_ ∧ _))

/-- `find_vma` on a structure that exists, with the new `mmap_cache`. -/
def findVma (mm : MmStruct) (addr : Nat) : Option Vma × MmStruct :=
  let vma :=
    match mm.mmapCache.filter (fun vma => vma.Contains addr) with
    | some vma => some vma
    | none => mm.mmapList.find? (fun vma => vma.Contains addr)
  (vma, { mm with mmapCache := vma.or mm.mmapCache })

/-- What `insert_vma_struct` asserts of two neighbours. -/
def checkVmaOverlap (prev next : Vma) : Bool :=
  prev.vmStart < prev.vmEnd && prev.vmEnd ≤ next.vmStart && next.vmStart < next.vmEnd

/-- `insert_vma_struct`: behind the last area that does not start above `vma`. -/
def insertVmaStruct (mm : MmStruct) (vma : Vma) : Except Halt MmStruct :=
  let before := mm.mmapList.takeWhile fun v => v.vmStart ≤ vma.vmStart
  let after := mm.mmapList.dropWhile fun v => v.vmStart ≤ vma.vmStart
  if vma.vmStart < vma.vmEnd && before.getLast?.all (fun prev => checkVmaOverlap prev vma) &&
      after.head?.all (fun next => checkVmaOverlap vma next) then
    .ok { mm with mmapList := before ++ vma :: after, mapCount := mm.mapCount + 1 }
  else .error .assert

end Ucore.Mm
