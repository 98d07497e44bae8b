import Ucore.Mm.Vmm

/-!
# `Ucore.Mm.Cow`: copying and copy-on-write

`copy_range` of lab 5, which duplicates a range of one address space into another, by copying its
pages (`share = 0`) or by sharing them (`share = 1`), and the page fault handler `do_pgfault`, which
serves the stores to shared pages.

The bits a copied entry keeps are those of `PTE_USER`, and `PTE_COW` is not one of them.

`copyShared` and `copyDup` are the two branches of the loop for one page, and `copyRangeStep` a
round: where the parent has no table it skips to the next one. The handler has a branch for a page
that is copy-on-write: it makes the entry writable when the process has the page to itself, and
otherwise copies the page first.
-/

set_option autoImplicit false

namespace Ucore.Mm

open Ucore.Lib
open Vm

variable {κ : Type} [DecidableEq κ] (e : PageOracle)

/-- The part of `copy_range` for a valid entry with `share = 1`. -/
def copyShared (s : Vm κ) (toDir fromDir : κ) (start : Nat) : Int × Vm κ :=
  let ptep : Slot κ := (fromDir, vpn start)
  -- `PTE_USER` has no `PTE_COW`, so a page that is shared already loses the mark here
  let perm := (s.leaf ptep).flags &&& pteUser
  let page := (s.leaf ptep).ppn
  -- a writable page: both entries lose `PTE_W` and get `PTE_COW`
  if PteFlags.has perm pteW then
    let s := s.setLeaf ptep { s.leaf ptep with flags := ((s.leaf ptep).flags &&& ~~~pteW) ||| pteCow }
    pageInsert e s toDir page start ((perm ||| pteCow) &&& ~~~pteW)
  else pageInsert e s toDir page start perm

/-- The part of `copy_range` for a valid entry with `share = 0`. -/
def copyDup (s : Vm κ) (toDir fromDir : κ) (start : Nat) : Except Halt (Int × Vm κ) :=
  let ptep : Slot κ := (fromDir, vpn start)
  let perm := (s.leaf ptep).flags &&& pteUser
  let page := (s.leaf ptep).ppn
  match allocPage e s with
  -- `assert(npage != NULL)`
  | (none, _) => .error .noMem
  | (some npage, s) =>
      match pageInsert e (s.copyPage npage page) toDir npage start perm with
      | (ret, s) => if ret = 0 then .ok (0, s) else .error .assert

/-- One round of the loop of `copy_range`: the return value when it is not zero, the next
address and the state. -/
def copyRangeStep (toDir fromDir : κ) (share : Bool) (start : Nat) (s : Vm κ) :
    Except Halt (Int × Nat × Vm κ) :=
  match getPte e s fromDir start false with
  -- no table at this address, so the walk goes on behind the table
  | (false, s) => .ok (0, roundDown (start + ptSize) ptSize, s)
  | (true, s) =>
      if (s.leaf (fromDir, vpn start)).valid then
        -- the parent has a page here: first the table of the child, then the page
        match getPte e s toDir start true with
        | (false, s) => .ok (-eNoMem, start, s)
        | (true, s) =>
            if share then
              match copyShared e s toDir fromDir start with
              | (ret, s) => .ok (ret, start + pgSize, s)
            else do
              let (ret, s) ← copyDup e s toDir fromDir start
              return (ret, start + pgSize, s)
      else .ok (0, start + pgSize, s)

/-- The loop of `copy_range`. -/
def copyRangeLoop (toDir fromDir : κ) (share : Bool) (stop : Nat) :
    Nat → Nat → Vm κ → Except Halt (Int × Vm κ)
  | 0, _, _ => .error .fuel
  | fuel + 1, start, s => do
      let (ret, start, s) ← copyRangeStep e toDir fromDir share start s
      if ret ≠ 0 then return (ret, s)
      -- `while (start != 0 && start < end)`
      else if start ≠ 0 ∧ start < stop then copyRangeLoop toDir fromDir share stop fuel start s
      else return (0, s)

/-- `copy_range`. Every round moves `start` up, so `stop` rounds are enough. -/
def copyRange (s : Vm κ) (toDir fromDir : κ) (start stop : Nat) (share : Bool) :
    Except Halt (Int × Vm κ) :=
  if start % pgSize = 0 ∧ stop % pgSize = 0 ∧ userAccess start stop = true then
    copyRangeLoop e toDir fromDir share stop stop start s
  else .error .assert

/-- `CAUSE_STORE_PAGE_FAULT`. -/
def causeStorePageFault : Nat := 0xf

/-- The copy-on-write branch of `do_pgfault`, for the entry at `la`. -/
def cowFault (s : Vm κ) (k : κ) (la : Nat) : Int × Vm κ :=
  let ptep : Slot κ := (k, vpn la)
  let page := (s.leaf ptep).ppn
  if 1 < s.ref page then
    match allocPage e s with
    -- other entries map the page, so the process gets a copy
    | (none, s) => (-eNoMem, s)
    | (some npage, s) =>
        let s := s.copyPage npage page
        let perm := (((s.leaf ptep).flags &&& pteUser) ||| pteW) &&& ~~~pteCow
        match pageInsert e s k npage la perm with
        | (ret, s) => if ret ≠ 0 then (ret, freePage s npage) else (0, s)
  else
    -- no other entry does, so this one becomes writable
    (0, s.setLeaf ptep
      { s.leaf ptep with flags := ((s.leaf ptep).flags ||| pteW) &&& ~~~pteCow })

/-- `do_pgfault` of the process with the structure `mm` and the address space `k`. -/
def doPgfault (s : Vm κ) (k : κ) (mm : Option MmStruct) (errorCode addr : Nat) :
    Int × Option MmStruct × Vm κ :=
  match mm with
  | none => (-eInval, none, s)
  | some mm =>
      match findVma mm addr with
      | (none, mm) => (-eInval, some mm, s)
      | (some vma, mm) =>
          -- `find_vma` may give the area behind the address
          if addr < vma.vmStart then (-eInval, some mm, s)
          else
            let la := roundDown addr pgSize
            match getPte e s k la false with
            | (false, s) => (-eNoMem, some mm, s)
            | (true, s) =>
                if (s.leaf (k, vpn la)).flags &&& (pteV ||| pteCow) = pteV ||| pteCow ∧
                    errorCode = causeStorePageFault then
                  match cowFault e s k la with
                  | (ret, s) => (ret, some mm, s)
                else (-eInval, some mm, s)

end Ucore.Mm
