import Ucore.Process.NewMm

/-!
# `Ucore.Process.MmRun`: the areas of all address spaces

The structures with their areas, and the calls of `vmm.c` that read or change them. `mm_create` also
stands for the `mm_destroy` before it. The memory and the heap can change in between.

`MmOp` has `mm_create`, `mm_map`, `dup_mmap` and `user_mem_check`, which changes `mmap_cache`.
Anything else may do what it likes to the pages and to the heap in between (`elsewhere`), so a run
here is a run of the whole kernel as far as the areas are concerned.

`MmRun al cond` are the states that calls lead to which return and meet the condition `cond` in the
state in front of them. Arguments are numbers of 64 bits, as `Enabled` says.
-/

set_option autoImplicit false

namespace Ucore.Process

open Ucore.Lib Ucore.Mm

/-- The address spaces `κ`. -/
structure MmSys (κ : Type) where
  vm : Vm κ
  heap : Heap
  mms : κ → MmStruct

/-- What `mm_create` leaves. -/
def noAreas : MmStruct := ⟨[], none, 0⟩

/-- The calls that change the areas of an address space, and any change of pages and heap beside
them. -/
inductive MmOp (κ : Type) where
  | mmCreate (k : κ)
  | mmMap (k : κ) (addr len vmFlags : Nat)
  | dupMmap (child parent : κ)
  | userMemCheck (k : κ) (addr len : Nat) (write : Bool)
  | elsewhere (vm : Vm κ) (heap : Heap)

namespace MmOp

variable {κ : Type} [DecidableEq κ]

/-- The arguments are numbers of 64 bits, and `copy_mm` duplicates into a structure that it has just
created. -/
def Enabled (sys : MmSys κ) : MmOp κ → Prop
  | mmMap _ addr len _ => addr < 2 ^ 64 ∧ len < 2 ^ 64
  | userMemCheck _ addr len _ => addr < 2 ^ 64 ∧ len < 2 ^ 64
  | dupMmap child parent => child ≠ parent ∧ sys.mms child = noAreas
  | _ => True

/-- The state behind a call that returns. -/
def exec (al : Allocators) (sys : MmSys κ) : MmOp κ → Except Halt (MmSys κ)
  | mmCreate k => .ok { sys with mms := Function.update sys.mms k noAreas }
  | mmMap k addr len vmFlags => do
      let (_, heap, mm) ← Mm.mmMap al.heap sys.heap (sys.mms k) addr len vmFlags
      return { sys with heap := heap, mms := Function.update sys.mms k mm }
  | dupMmap child parent => do
      let (_, t) ← dup_mmap al child parent (sys.mms parent)
        ⟨sys.vm, sys.heap, sys.mms child, [], 0⟩
      return ⟨t.vm, t.heap, Function.update sys.mms child t.mm⟩
  | userMemCheck k addr len write => do
      let (_, mm) ← Mm.userMemCheck (some (sys.mms k)) addr len write
      return { sys with mms := Function.update sys.mms k (mm.getD (sys.mms k)) }
  | elsewhere vm heap => .ok { sys with vm := vm, heap := heap }

end MmOp

/-- The states behind any calls that meet a condition and return. -/
inductive MmRun {κ : Type} [DecidableEq κ] (al : Allocators) (cond : MmSys κ → MmOp κ → Prop) :
    MmSys κ → Prop
  | init (vm : Vm κ) (heap : Heap) : MmRun al cond ⟨vm, heap, fun _ => noAreas⟩
  | step {sys sys' : MmSys κ} (op : MmOp κ) : MmRun al cond sys → op.Enabled sys → cond sys op →
      op.exec al sys = .ok sys' → MmRun al cond sys'

end Ucore.Process
