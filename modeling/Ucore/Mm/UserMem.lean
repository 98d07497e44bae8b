import Ucore.Mm.Cow

/-!
# `Ucore.Mm.UserMem`: processes and their memory

User processes of lab 5 that fork, load and store. A store that the hardware refuses
traps into `do_pgfault`; when that returns zero the instruction runs again, and when not
the process is killed and the store has failed. For a load that the hardware refuses the
trap handler prints a line and returns, so the process stays at that load for ever.

`dup_mmap` passes a constant for `share`. Here it is a parameter, so that one model has
both the sharing and the copying system.

Sv39 translates an address below `2 ^ 38` by its three indices. The upper half of the
address space belongs to the kernel, whose entries user mode cannot use.
-/

set_option autoImplicit false

namespace Ucore.Mm

open Ucore.Lib
open Vm

/-- The entry user mode translates an address with, if there is one. -/
def userEntry {κ : Type} (s : Vm κ) (k : κ) (addr : Nat) : Option Pte :=
  if addr < 2 ^ 38 then some (s.leaf (k, vpn addr)) else none

/-- The hardware lets user mode load through the entry. -/
def Pte.canLoad (e : Pte) : Bool :=
  e.valid && PteFlags.has e.flags pteR && PteFlags.has e.flags pteU

/-- The hardware lets user mode store through the entry. An entry with `PTE_W` and without
`PTE_R` is reserved. -/
def Pte.canStore (e : Pte) : Bool :=
  e.valid && PteFlags.has e.flags pteR && PteFlags.has e.flags pteW && PteFlags.has e.flags pteU

/-- The offset of an address in its page. -/
def pgOff (addr : Nat) : Fin 4096 := Fin.ofNat 4096 addr

/-- The byte user mode reads at an address, when the hardware lets it. -/
def userByte {κ : Type} (s : Vm κ) (k : κ) (addr : Nat) : Option UInt8 :=
  match userEntry s k addr with
  | none => none
  | some pte => if pte.canLoad then some (s.data pte.ppn (pgOff addr)) else none

/-- Processes with their memory. A process that does not exist has no `mm`. -/
structure UserSys (κ : Type) where
  vm : Vm κ
  mms : κ → Option MmStruct

section

variable {κ : Type} [DecidableEq κ] (e : PageOracle)

/-- The trap of a refused store: the return value of the handler. -/
def storePageFault (sys : UserSys κ) (k : κ) (addr : Nat) : Int × UserSys κ :=
  match doPgfault e sys.vm k (sys.mms k) causeStorePageFault addr with
  | (ret, mm, vm) => (ret, ⟨vm, Function.update sys.mms k mm⟩)

/-- Write one byte of a page. -/
def setByte (s : Vm κ) (p : Frame) (off : Fin 4096) (b : UInt8) : Vm κ :=
  { s with data := Function.update s.data p (Function.update (s.data p) off b) }

/-- A store, with whether it happened or the process was killed. -/
def userStore : Nat → UserSys κ → κ → Nat → UInt8 → Except Halt (Bool × UserSys κ)
  | 0, _, _, _, _ => .error .fuel
  | fuel + 1, sys, k, addr, b =>
      -- a refused store traps, and the instruction runs again when the handler returns 0
      let fault := match storePageFault e sys k addr with
        | (ret, sys) => if ret ≠ 0 then .ok (false, sys) else userStore fuel sys k addr b
      match userEntry sys.vm k addr with
      | none => fault
      | some pte =>
          if pte.canStore then
            .ok (true, { sys with vm := setByte sys.vm pte.ppn (pgOff addr) b })
          else fault

/-- The loop of `dup_mmap`, over the areas of the parent from the last to the first. That
`vma_create` finds memory is assumed. -/
def dupMmapLoop (toDir fromDir : κ) (share : Bool) :
    List Vma → MmStruct → Vm κ → Except Halt (Int × MmStruct × Vm κ)
  | [], to', s => .ok (0, to', s)
  | vma :: vmas, to', s => do
      let to' ← insertVmaStruct to' ⟨vma.vmStart, vma.vmEnd, vma.vmFlags⟩
      let (ret, s) ← copyRange e s toDir fromDir vma.vmStart vma.vmEnd share
      if ret ≠ 0 then return (-eNoMem, to', s)
      else dupMmapLoop toDir fromDir share vmas to' s

/-- `dup_mmap` with the parameter `share`. -/
def dupMmap (toDir fromDir : κ) (share : Bool) (to' from' : MmStruct) (s : Vm κ) :
    Except Halt (Int × MmStruct × Vm κ) :=
  dupMmapLoop e toDir fromDir share from'.mmapList.reverse to' s

/-- What the processes do. -/
inductive UserOp (κ : Type)
  | fork (parent child : κ)
  | load (k : κ) (addr : Nat)
  | store (k : κ) (addr : Nat) (b : UInt8)

/-- What a process sees of it: the return value, the byte unless the load never happens,
and whether the store happened. -/
inductive UserObs
  | forked (ret : Int)
  | loaded (b : Option UInt8)
  | stored (ok : Bool)
  deriving DecidableEq, Repr

/-- Processes that exist load, store and fork processes that do not. -/
def UserOp.Legal (sys : UserSys κ) : UserOp κ → Prop
  | .fork parent child => (sys.mms parent).isSome = true ∧ sys.mms child = none
  | .load k _ => (sys.mms k).isSome = true
  | .store k _ _ => (sys.mms k).isSome = true

instance (sys : UserSys κ) (op : UserOp κ) : Decidable (op.Legal sys) :=
  match op with
  | .fork _ _ => inferInstanceAs (Decidable (_ ∧ _))
  | .load _ _ => inferInstanceAs (Decidable (_ = _))
  | .store _ _ _ => inferInstanceAs (Decidable (_ = _))

/-- One operation. A store traps twice at most, so a fuel of three is enough. What a fork
without memory left behind is not unwound here. -/
def UserOp.exec (share : Bool) (sys : UserSys κ) : UserOp κ → Except Halt (UserObs × UserSys κ)
  | .fork parent child => do
      let from' := (sys.mms parent).getD ⟨[], none, 0⟩
      let (ret, mm, vm) ← dupMmap e child parent share ⟨[], none, 0⟩ from' sys.vm
      if ret ≠ 0 then return (.forked ret, ⟨vm, sys.mms⟩)
      else return (.forked 0, ⟨vm, Function.update sys.mms child (some mm)⟩)
  | .load k addr => .ok (.loaded (userByte sys.vm k addr), sys)
  | .store k addr b => do
      let (ok, sys) ← userStore e 3 sys k addr b
      return (.stored ok, sys)

end

end Ucore.Mm
