import Ucore.Mm.Cow
import Ucore.Mm.Heap

/-!
# `Ucore.Mm.Mmap`: areas and the pages behind them

What lab 8 has in `kern/mm/vmm.c` and `kern/mm/pmm.c` beside the functions of `Ucore.Mm.Vmm` and
`Ucore.Mm.PageTable`: `mm_map`, `user_mem_check`, `pgdir_alloc_page`, and `exit_mmap` with
`exit_range`. Sums of addresses wrap around at `2 ^ 64`.

`mm_map` rounds the range to whole pages, looks for an area at its start, and inserts a new one.
What `insert_vma_struct` asserts stops the machine when another area is in the way. `user_mem_check`
goes through the areas of the range and tests the flags of each. `pgdir_alloc_page` takes a page for
a user address, and `exit_mmap` gives the pages and then the tables of a process back.
-/

set_option autoImplicit false

namespace Ucore.Mm

open Ucore.Lib
open Vm

/-- A number as a `uintptr_t`. -/
def uintptr (n : Nat) : Nat := n % 2 ^ 64

/-- `ROUNDUP(a, PGSIZE)`. -/
def pageRoundUp (a : Nat) : Nat := roundDown (uintptr (a + pgSize - 1)) pgSize

/-- `VM_READ`. -/
def vmRead : Nat := 0x1
/-- `VM_WRITE`. -/
def vmWrite : Nat := 0x2
/-- `VM_EXEC`. -/
def vmExec : Nat := 0x4
/-- `VM_STACK`. -/
def vmStack : Nat := 0x8

/-- `vm_flags & flag`, as a test. -/
def Vma.has (vma : Vma) (flag : Nat) : Bool := vma.vmFlags &&& flag ≠ 0

/-- `KERNBASE`, a virtual address. -/
def kernBase : Nat := 0xFFFFFFFFC0200000
/-- `KERNTOP`. -/
def kernTop : Nat := kernBase + 0x7E00000

/-- `KERN_ACCESS(start, end)`. -/
def kernAccess (start stop : Nat) : Bool := kernBase ≤ start && start < stop && stop ≤ kernTop

/-- `mm_map` on a structure that exists. The result is the address of the new area, or the error
code. -/
def mmMap (h : HeapOracle) (heap : Heap) (mm : MmStruct) (addr len vmFlags : Nat) :
    Except Halt (Except Int Nat × Heap × MmStruct) :=
  let start := roundDown addr pgSize
  let stop := pageRoundUp (uintptr (addr + len))
  if userAccess start stop = false then .ok (.error (-eInval), heap, mm)
  else
    match findVma mm start with
    | (vma, mm) =>
        if vma.any (fun vma => vma.vmStart < stop) then .ok (.error (-eInval), heap, mm)
        else
          match heap.kmalloc h with
          | (none, heap) => .ok (.error (-eNoMem), heap, mm)
          | (some p, heap) => do
              let mm ← insertVmaStruct mm ⟨start, stop, vmFlags⟩
              return (.ok p, heap, mm)

/-! ### Checking an access -/

/-- The loop of `user_mem_check`. -/
def userMemCheckLoop (write : Bool) (stop : Nat) :
    Nat → Nat → MmStruct → Except Halt (Bool × MmStruct)
  | 0, _, _ => .error .fuel
  | fuel + 1, start, mm =>
      if start < stop then
        match findVma mm start with
        | (none, mm) => .ok (false, mm)
        | (some vma, mm) =>
            if start < vma.vmStart then .ok (false, mm)
            else if vma.has (if write then vmWrite else vmRead) = false then .ok (false, mm)
            else if write = true ∧ vma.has vmStack = true ∧ start < vma.vmStart + pgSize then
              .ok (false, mm)
            else userMemCheckLoop write stop fuel vma.vmEnd mm
      else .ok (true, mm)

/-- `user_mem_check`. Every round moves `start` up, so `addr + len` rounds are enough. -/
def userMemCheck (mm : Option MmStruct) (addr len : Nat) (write : Bool) :
    Except Halt (Bool × Option MmStruct) :=
  let stop := uintptr (addr + len)
  match mm with
  | none => .ok (kernAccess addr stop, none)
  | some mm =>
      if userAccess addr stop = false then .ok (false, some mm)
      else do
        let (ok, mm) ← userMemCheckLoop write stop (stop + 1) addr mm
        return (ok, some mm)

section

variable {κ : Type} [DecidableEq κ] (e : PageOracle)

/-! ### Pages -/

/-- `pgdir_alloc_page`. -/
def pgdirAllocPage (s : Vm κ) (k : κ) (la : Nat) (perm : PteFlags) :
    Except Halt (Option Frame × Vm κ) :=
  match allocPage e s with
  | (none, s) => .ok (none, s)
  | (some page, s) =>
      match pageInsert e s k page la perm with
      | (ret, s) =>
          if ret ≠ 0 then .ok (none, freePage s page)
          else if s.ref page = 1 then .ok (some page, s)
          else .error .assert

/-- `pt[i] & PTE_V` holds for no `i`. -/
def PageTable.unused (t : PageTable) : Bool := decide (∀ i, (t.pte i).valid = false)

/-- Write a zero to one place of a middle-level table. -/
def PageDir0.clear (d : PageDir0) (j : Fin 512) : PageDir0 :=
  { d with pde := Function.update d.pde j none }

/-- Write a zero to one place of a page directory. -/
def clearPde (s : Vm κ) (k : κ) (i : Fin 512) : Vm κ :=
  { s with dirs := Function.update s.dirs k (Function.update (s.dirs k) i none) }

/-- One round of the inner loop of `exit_range`, at the last-level table of `d0start`: whether
`free_pd0` stays. -/
def exitRangePt (k : κ) (d0start : Nat) (s : Vm κ) : Bool × Vm κ :=
  match s.dirs k (pdx1 d0start) with
  | none => (true, s)
  | some d =>
      match d.pde (pdx0 d0start) with
      | none => (false, s)
      | some t =>
          if t.unused then
            (true, (freePage s t.frame).setPde k (pdx1 d0start) (d.clear (pdx0 d0start)))
          else (true, s)

/-- The inner loop of `exit_range`. -/
def exitRangePts (k : κ) (d1start stop : Nat) :
    Nat → Nat → Bool → Vm κ → Except Halt (Bool × Vm κ)
  | 0, _, _, _ => .error .fuel
  | fuel + 1, d0start, freePd0, s =>
      match exitRangePt k d0start s with
      | (stays, s) =>
          let d0start := d0start + ptSize
          if d0start < d1start + pdSize ∧ d0start < stop then
            exitRangePts k d1start stop fuel d0start (freePd0 && stays) s
          else .ok (freePd0 && stays, s)

/-- One round of the outer loop of `exit_range`. -/
def exitRangePd0 (k : κ) (d1start d0start stop : Nat) (s : Vm κ) : Except Halt (Vm κ) :=
  match s.dirs k (pdx1 d1start) with
  | none => .ok s
  | some d => do
      let (freePd0, s) ← exitRangePts k d1start stop 512 d0start true s
      if freePd0 then return clearPde (freePage s d.frame) k (pdx1 d1start)
      else return s

/-- The outer loop of `exit_range`. -/
def exitRangeLoop (k : κ) (stop : Nat) : Nat → Nat → Nat → Vm κ → Except Halt (Vm κ)
  | 0, _, _, _ => .error .fuel
  | fuel + 1, d1start, d0start, s => do
      let s ← exitRangePd0 k d1start d0start stop s
      let d1start := d1start + pdSize
      if d1start < stop then exitRangeLoop k stop fuel d1start d1start s
      else return s

/-- `exit_range`. User addresses reach two entries of a page directory. -/
def exitRange (s : Vm κ) (k : κ) (start stop : Nat) : Except Halt (Vm κ) :=
  if start % pgSize = 0 ∧ stop % pgSize = 0 ∧ userAccess start stop = true then
    exitRangeLoop k stop 2 (roundDown start pdSize) (roundDown start ptSize) s
  else .error .assert

/-- The first loop of `exit_mmap`. -/
def exitMmapUnmap (k : κ) : List Vma → Vm κ → Except Halt (Vm κ)
  | [], s => .ok s
  | vma :: vmas, s => do
      let s ← unmapRange e s k vma.vmStart vma.vmEnd
      exitMmapUnmap k vmas s

/-- The second loop of `exit_mmap`. -/
def exitMmapTables (k : κ) : List Vma → Vm κ → Except Halt (Vm κ)
  | [], s => .ok s
  | vma :: vmas, s => do
      let s ← exitRange s k vma.vmStart vma.vmEnd
      exitMmapTables k vmas s

/-- `exit_mmap`. -/
def exitMmap (s : Vm κ) (k : κ) (mm : MmStruct) : Except Halt (Vm κ) := do
  let s ← exitMmapUnmap e k mm.mmapList s
  exitMmapTables k mm.mmapList s

end

end Ucore.Mm
