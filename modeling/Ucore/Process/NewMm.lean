import Ucore.Lib.Routine
import Ucore.Mm.Mmap

/-!
# `Ucore.Process.NewMm`: a `struct mm_struct` that is being set up

What `dup_mmap` and `load_icode` of lab 8 do to the new structure before it belongs to a process:
the structure, its page directory, its areas, and the way back. The state is the memory and the
kernel heap with the fields of the structure. The address space `κ` is the one whose page directory
the structure has. An error is the value that the caller returns.

`dup_mmap` copies the areas one after another, each with its pages, and stops at the first that
fails. The loop is written over the areas that are left. `exit_mmap`, `put_pgdir` and `mm_destroy`
are the way back, which the callers take.
-/

set_option autoImplicit false

namespace Ucore.Process

open Ucore.Lib Ucore.Mm

/-- The memory, the heap, and the fields of the new structure: `mmap_list` and `mmap_cache`, and
where the areas of the list are on the heap. `reads` counts the calls of `load_icode_read`. -/
structure NewMm (κ : Type) where
  vm : Vm κ
  heap : Heap
  mm : MmStruct
  vmas : List Nat
  reads : Nat

/-- A kernel function over the new structure. -/
abbrev NewMmM (κ : Type) := Routine (NewMm κ) Int Halt

/-- The allocators. -/
structure Allocators where
  pages : PageOracle
  heap : HeapOracle

variable {κ : Type} [DecidableEq κ] (al : Allocators)

/-- Run a function over the memory. -/
def onVm {α : Type} (f : Vm κ → Except Halt (α × Vm κ)) : NewMmM κ α := fun t =>
  match f t.vm with
  | .ok (a, vm) => .ok (.ok a, { t with vm := vm })
  | .error h => .error h

/-- `kmalloc`, with `-E_NO_MEM` for NULL. -/
def kmallocOr (ret : Int) : NewMmM κ Nat := fun t =>
  match t.heap.kmalloc al.heap with
  | (some p, heap) => .ok (.ok p, { t with heap := heap })
  | (none, heap) => .ok (.error ret, { t with heap := heap })

/-- `kfree` -/
def kfree (p : Nat) : NewMmM κ Unit := Routine.modify fun t => { t with heap := t.heap.kfree p }

/-- `kfree` of each of some addresses. -/
def kfreeAll : List Nat → NewMmM κ Unit
  | [] => pure ()
  | p :: ps => do
      kfree p
      kfreeAll ps

/-- `mm_create` -/
def mm_create : NewMmM κ Nat := do
  let mm ← kmallocOr al (-eNoMem)
  Routine.modify fun t => { t with mm := ⟨[], none, 0⟩, vmas := [] }
  return mm

/-- `setup_pgdir`. No user address is mapped in `boot_pgdir_va`. -/
def setup_pgdir (k : κ) : NewMmM κ Frame := do
  match ← onVm fun vm => .ok (allocPage al.pages vm) with
  | none => Routine.fail (-eNoMem)
  | some page =>
      onVm fun vm => .ok ((), { vm with dirs := Function.update vm.dirs k fun _ => none })
      return page

/-- `put_pgdir` -/
def put_pgdir (pgdir : Frame) : NewMmM κ Unit := onVm fun vm => .ok ((), freePage vm pgdir)

/-- `exit_mmap` of the new structure, whose `mm_count` is 0. -/
def exit_mmap (k : κ) : NewMmM κ Unit := do
  let mm ← Routine.read fun t => t.mm
  onVm fun vm => (exitMmap al.pages vm k mm).map fun vm => ((), vm)

/-- `mm_destroy` of the structure at `mm`, whose `mm_count` is 0. -/
def mm_destroy (mm : Nat) : NewMmM κ Unit := do
  let vmas ← Routine.read fun t => t.vmas
  kfreeAll vmas
  Routine.modify fun t => { t with mm := { t.mm with mmapList := [] }, vmas := [] }
  kfree mm

/-- `insert_vma_struct` of the area at `vma`. -/
def insert_vma_struct (p : Nat) (vma : Vma) : NewMmM κ Unit := fun t =>
  match insertVmaStruct t.mm vma with
  | .ok mm => .ok (.ok (), { t with mm := mm, vmas := p :: t.vmas })
  | .error h => .error h

/-- `mm_map` -/
def mm_map (addr len vm_flags : Nat) : NewMmM κ Unit := fun t =>
  match mmMap al.heap t.heap t.mm addr len vm_flags with
  | .ok (.ok p, heap, mm) => .ok (.ok (), { t with heap := heap, mm := mm, vmas := p :: t.vmas })
  | .ok (.error ret, heap, mm) => .ok (.error ret, { t with heap := heap, mm := mm })
  | .error h => .error h

/-- `pgdir_alloc_page` -/
def pgdir_alloc_page (k : κ) (la : Nat) (perm : PteFlags) : NewMmM κ (Option Frame) :=
  onVm fun vm => pgdirAllocPage al.pages vm k la perm

/-! ### Copying an address space -/

/-- The loop of `dup_mmap`, over the areas from the last to the first. -/
def dup_mmap_loop (to_dir from_dir : κ) : List Vma → NewMmM κ Unit
  | [] => pure ()
  | vma :: vmas => do
      let nvma ← kmallocOr al (-eNoMem)
      insert_vma_struct nvma ⟨vma.vmStart, vma.vmEnd, vma.vmFlags⟩
      let ret ← onVm fun vm => copyRange al.pages vm to_dir from_dir vma.vmStart vma.vmEnd false
      if ret ≠ 0 then Routine.fail (-eNoMem)
      else dup_mmap_loop to_dir from_dir vmas

/-- `dup_mmap` -/
def dup_mmap (to_dir from_dir : κ) (oldmm : MmStruct) : NewMmM κ Unit :=
  dup_mmap_loop al to_dir from_dir oldmm.mmapList.reverse

end Ucore.Process
