import Mathlib
import Ucore.Mm.PageInit

/-!
# `Ucore.Mm.PageInit8`: the pages of lab 8 and the window they are seen through

`page_init` and `switch_kernel_memorylayout` of `kern/mm/pmm.c` of lab 8, as far as they decide
which pages the manager gets and which addresses the page table of the kernel maps. All differences
are ones of `size_t`.

The two guard pages around the boot stack are in the kernel image, and are left out.

`Handed` is the call of `init_memmap`, when there is one, with the bounds that the source computed.
`HandedOk` and `PageInitOk` are what is asked of it: each page has a descriptor, lies behind the
kernel image and the descriptors, and has an address of the kernel that the page table maps to it.
`InWindow` is the condition under which this is so.
-/

set_option autoImplicit false

namespace Ucore.Mm

open Ucore.Lib

/-- `sizeof(struct Page)` of lab 8: three fields of eight bytes, two list entries and one more. -/
def sizeofPage8 : Nat := 64

/-- A difference of two numbers of type `size_t`. -/
def sizeSub (a b : Nat) : Nat := uintptr (a + 2 ^ 64 - b)

/-- `PADDR` of a kernel address. -/
def paddr (kva : Nat) : Except Halt Nat :=
  if kva < kernBase then .error .assert else .ok (kva - vaPaOffset)

/-- `npage`: `maxpa` is cut off at `KERNTOP`. -/
def npageOf (memBase memSize : Nat) : Nat :=
  let memEnd := uintptr (memBase + memSize)
  let maxpa := if memEnd > kernTop then kernTop else memEnd
  maxpa / pgSize

/-- A call of `init_memmap`: the two bounds in memory, the index of the first page in `pages[]`, and
the number of pages. -/
structure Handed where
  memBegin : Nat
  memEnd : Nat
  base : Nat
  n : Nat
  deriving DecidableEq, Repr

/-- What `page_init` finds out: the address of `pages[]`, the number of its descriptors, and the
call of `init_memmap`, if there is one. -/
structure PageInit8 where
  pages : Nat
  count : Nat
  handed : Option Handed
  deriving DecidableEq, Repr

/-- `page_init` on the memory that the device tree tells of, with the address `end` of the kernel. -/
def pageInit8 (memBase memSize kernEnd : Nat) : Except Halt PageInit8 :=
  if memSize = 0 then .error .assert
  else
    let memEnd := uintptr (memBase + memSize)
    let npage := npageOf memBase memSize
    let pages := pageRoundUp kernEnd
    let count := sizeSub npage nbase
    -- the loop that sets `PG_reserved` faults on a descriptor that is not mapped
    if 0 < count ∧ (pages < kernMapped ∨ 2 ^ 64 < pages + sizeofPage8 * count) then .error .assert
    else do
      let freemem ← paddr (uintptr (pages + sizeofPage8 * count))
      let memBegin := pageRoundUp freemem
      let memEnd := roundDown memEnd pgSize
      if freemem < memEnd then
        -- `pa2page`
        if npage ≤ memBegin / pgSize then .error .assert
        else
          return ⟨pages, count, some ⟨memBegin, memEnd, sizeSub (memBegin / pgSize) nbase,
            sizeSub memEnd memBegin / pgSize⟩⟩
      else return ⟨pages, count, none⟩

/-- `page2kva`, but for the test of `KADDR`. -/
def page2kva (page : Nat) : Nat := uintptr ((page + nbase) * pgSize + vaPaOffset)

/-! ### The page table of the kernel -/

/-- The entries of the kernel's page table, by the number of the page that they translate. -/
abbrev KernPgdir := Nat → Option Pte

/-- The loop of `boot_map_segment`. -/
def bootMapLoop (perm : PteFlags) : Nat → Nat → Nat → KernPgdir → KernPgdir
  | 0, _, _, pgdir => pgdir
  | n + 1, la, pa, pgdir =>
      bootMapLoop perm n (la + pgSize) (pa + pgSize)
        (Function.update pgdir (la / pgSize) (some (pteCreate (pa / pgSize) perm)))

/-- `boot_map_segment` -/
def bootMapSegment (pgdir : KernPgdir) (la size pa : Nat) (perm : PteFlags) :
    Except Halt KernPgdir :=
  if la % pgSize ≠ pa % pgSize then .error .assert
  else
    let n := pageRoundUp (size + la % pgSize) / pgSize
    .ok (bootMapLoop perm n (roundDown la pgSize) (roundDown pa pgSize) pgdir)

/-- The page table that `switch_kernel_memorylayout` builds, with the address `etext` of the
kernel. -/
def switchKernelMemorylayout (etext : Nat) : Except Halt KernPgdir := do
  let retext := pageRoundUp etext
  let pa ← paddr kernBase
  let pgdir ← bootMapSegment (fun _ => none) kernBase (sizeSub retext kernBase) pa (pteR ||| pteX)
  let pa ← paddr retext
  bootMapSegment pgdir retext (sizeSub kernTop retext) pa (pteR ||| pteW)

/-! ### What is asked of `page_init` -/

/-- What is asked of a call of `init_memmap`: it has a page, its differences do not wrap around, and
each page has its descriptor, is neither in the image nor in `pages[]`, and can be written through
the page table. -/
structure HandedOk (kernEnd : Nat) (pgdir : KernPgdir) (r : PageInit8) (h : Handed) : Prop where
  pos : 0 < h.n
  noWrap : h.memBegin ≤ h.memEnd ∧ nbase ≤ h.memBegin / pgSize
  inside : ∀ i, h.base ≤ i → i < h.base + h.n →
    i < r.count ∧ kernEnd ≤ page2kva i ∧ r.pages + sizeofPage8 * r.count ≤ page2kva i ∧
      pgdir (page2kva i / pgSize) = some (pteCreate (i + nbase) (pteR ||| pteW))

/-- What is asked of `page_init`, with the page table that is built after it. -/
def PageInitOk (memBase memSize etext kernEnd : Nat) : Prop :=
  (memSize ≠ 0 → memBase + memSize < 2 ^ 64 ∧ nbase ≤ npageOf memBase memSize) ∧
    ∃ pgdir, switchKernelMemorylayout etext = .ok pgdir ∧
      ∀ r h, pageInit8 memBase memSize kernEnd = .ok r → r.handed = some h →
        HandedOk kernEnd pgdir r h

/-- Where `pages[]` ends, for all pages of the memory. -/
def pagesEnd (memBase memSize kernEnd : Nat) : Nat :=
  pageRoundUp kernEnd + sizeofPage8 * ((memBase + memSize) / pgSize - nbase)

/-- No memory is told of; or it does not wrap around, ends behind `DRAM_BASE`, and it ends in the
window, or `pages[]` leaves none of it, or `pages[]` has no place in the address space. -/
def InWindow (memBase memSize kernEnd : Nat) : Prop :=
  memSize = 0 ∨ memBase + memSize < 2 ^ 64 ∧ nbase ≤ (memBase + memSize) / pgSize ∧
    (roundDown (memBase + memSize) pgSize ≤ kernTop - vaPaOffset ∨
      roundDown (memBase + memSize) pgSize ≤ pageRoundUp (pagesEnd memBase memSize kernEnd - vaPaOffset) ∨
      2 ^ 64 ≤ pagesEnd memBase memSize kernEnd)

end Ucore.Mm
