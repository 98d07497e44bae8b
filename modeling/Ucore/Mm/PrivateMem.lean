import Ucore.Mm.UserMem

/-!
# `Ucore.Mm.PrivateMem`: what fork promises

The abstract machine: every process has a memory of its own. A page has the four permissions and its
bytes, `fork` gives the child a copy of every page in the parent's areas, and a store changes one
byte of one page of one process. No frame, no reference count and no fault is left.

This is a statement of purpose and not a translation. `Ucore.Mm.UserMem` has the processes as the
kernel keeps them, and the theorem that connects the two is in `Ucore.Proofs.Mm.PrivateMem`. Memory
does not run out here, and a store either succeeds or not, by the permissions of the page.
-/

set_option autoImplicit false

namespace Ucore.Mm

open Classical

/-- A page of a process. -/
structure PrivatePage where
  r : Bool
  w : Bool
  x : Bool
  u : Bool
  data : PageData

/-- The page with one byte changed. -/
def PrivatePage.setByte (page : PrivatePage) (off : Fin 4096) (b : UInt8) : PrivatePage :=
  { page with data := Function.update page.data off b }

/-- The page with the indices `v` starts in the range. -/
def InRange (start stop : Nat) (v : Vpn) : Prop :=
  ∃ la, start ≤ la ∧ la < stop ∧ la % pgSize = 0 ∧ vpn la = v

/-- Some area has the page with the indices `v`. -/
def InAreas (vmas : List Vma) (v : Vpn) : Prop :=
  ∃ vma ∈ vmas, InRange vma.vmStart vma.vmEnd v

/-- The processes and their memory. -/
structure PrivateSys (κ : Type) where
  mem : Slot κ → Option PrivatePage
  areas : κ → Option (List Vma)

variable {κ : Type} [DecidableEq κ]

/-- The byte a process reads. -/
def PrivateSys.byte (a : PrivateSys κ) (k : κ) (addr : Nat) : Option UInt8 :=
  if addr < 2 ^ 38 then
    match a.mem (k, vpn addr) with
    | none => none
    | some page => if page.r && page.u then some (page.data (pgOff addr)) else none
  else none

/-- A store. -/
def PrivateSys.store (a : PrivateSys κ) (k : κ) (addr : Nat) (b : UInt8) :
    Bool × PrivateSys κ :=
  if addr < 2 ^ 38 then
    match a.mem (k, vpn addr) with
    | none => (false, a)
    | some page =>
        if page.r && page.w && page.u then
          let page := page.setByte (pgOff addr) b
          (true, { a with mem := Function.update a.mem (k, vpn addr) (some page) })
        else (false, a)
  else (false, a)

/-- A fork. -/
noncomputable def PrivateSys.fork (a : PrivateSys κ) (parent child : κ) : PrivateSys κ where
  mem x :=
    if x.1 = child then
      if InAreas ((a.areas parent).getD []) x.2 then a.mem (parent, x.2) else none
    else a.mem x
  areas := Function.update a.areas child (some ((a.areas parent).getD []))

/-- One operation. -/
noncomputable def PrivateSys.exec (a : PrivateSys κ) : UserOp κ → UserObs × PrivateSys κ
  | .fork parent child => (.forked 0, a.fork parent child)
  | .load k addr => (.loaded (a.byte k addr), a)
  | .store k addr b => (.stored (a.store k addr b).1, (a.store k addr b).2)

end Ucore.Mm
