import Mathlib
import Ucore.Mm.BuddyPmm
import Ucore.Mm.Mmap

/-!
# `Ucore.Mm.PageInit`: the memory that the buddy manager gets

`page_init` of `kern/mm/pmm.c` of lab 2, and `pmm_init` up to it. `page_init` puts the descriptors
of all pages from `DRAM_BASE` on behind the kernel, and hands the pages behind the descriptors to
`init_memmap`. A page of the region is an index in `pages[]`.

`mergeInspects` and `buddyFreeInspects` are what `buddy_free_pages` looks at: the indices of the
buddies whose descriptors it reads.

The arithmetic of addresses is that of the source: bounds are rounded to pages, `npage` is cut at
`KERNTOP`, and the descriptors take `sizeof(struct Page)` bytes each. `PageLayout` has the numbers
that come out.
-/

set_option autoImplicit false

namespace Ucore.Mm

open Ucore.Lib

/-- `nbase`: the number of the first page of the memory. -/
def nbase : Nat := 0x80000000 / pgSize

/-- `PHYSICAL_MEMORY_OFFSET` -/
def vaPaOffset : Nat := 0xFFFFFFFF40000000

/-- `sizeof(struct Page)`: four fields of eight, eight, eight and sixteen bytes. -/
def sizeofPage : Nat := 40

/-- Where the gigabyte begins that `boot_page_table_sv39` maps. It ends with the address space. -/
def kernMapped : Nat := 0xFFFFFFFFC0000000

/-- What `page_init` finds out: `npage`, the number of descriptors, and the pages that it hands to
`init_memmap`, if any. -/
structure PageLayout where
  npage : Nat
  count : Nat
  region : Option Span

/-- `page_init`, but for its stores, on the memory that the device tree tells of and with the
address `end` of the kernel. -/
def pageInit (memBase memSize kernEnd : Nat) : Except Halt PageLayout :=
  if memSize = 0 then .error .assert
  else
    let memEnd := (memBase + memSize) % 2 ^ 64
    let maxpa := if kernTop < memEnd then kernTop else memEnd
    let npage := maxpa / pgSize
    let pages := roundDown ((kernEnd + pgSize - 1) % 2 ^ 64) pgSize
    -- the difference `npage - nbase` is one of `size_t`
    let count := (npage + 2 ^ 64 - nbase) % 2 ^ 64
    -- the loop that sets `PG_reserved` faults on a descriptor that is not mapped
    if 0 < count ∧ (pages < kernMapped ∨ 2 ^ 64 < pages + sizeofPage * count) then .error .assert
    else
      let kva := (pages + sizeofPage * count) % 2 ^ 64
      -- `PADDR`
      if kva < kernBase then .error .assert
      else
        let freemem := kva - vaPaOffset
        let memBegin := roundDown ((freemem + pgSize - 1) % 2 ^ 64) pgSize
        let memEnd := roundDown memEnd pgSize
        if freemem < memEnd then
          -- `pa2page`
          if npage ≤ memBegin / pgSize then .error .assert
          else .ok
            { npage := npage
              count := count
              region := some ⟨memBegin / pgSize - nbase, (memEnd - memBegin) / pgSize⟩ }
        else .ok { npage := npage, count := count, region := none }

/-- The loop that sets `PG_reserved` in the first `n` descriptors. -/
def reservePages : Nat → Pages → Pages
  | 0, pages => pages
  | n + 1, pages =>
      let pages := reservePages n pages
      pages.setFlags n { (pages n).flags with reserved := true }

/-- `pmm_init` up to the end of `page_init`, over a memory in the state `s₀`. -/
def buddyPmmInit (fuel : Nat) (s₀ : BuddyAreas) (memBase memSize kernEnd : Nat) :
    Except Halt (PageLayout × BuddyAreas) := do
  let s := buddyPmmManager.init s₀
  let layout ← pageInit memBase memSize kernEnd
  let s := { s with npage := layout.npage, pages := reservePages layout.count s.pages }
  match layout.region with
  | none => return (layout, s)
  | some b =>
      let s ← buddyPmmManager.initMemmap fuel s b.start b.len
      return (layout, s)

/-- The buddies that the merge loop looks at, from the block `blk` of order `pk` on. -/
def mergeInspects : Nat → BuddyAreas → Nat → Nat → List Nat
  | 0, _, _, _ => []
  | d + 1, s, blk, pk =>
      match buddyOf s blk pk with
      | none => []
      | some buddy =>
          buddy :: if !(s.pages buddy).flags.property || (s.pages buddy).property ≠ 1 <<< pk then []
            else
              let s := dropBlock s buddy pk
              let s := { s with pages := s.pages.clearPageProperty blk }
              mergeInspects d s (if buddy < blk then buddy else blk) (pk + 1)

/-- The buddies that `freeBlock` looks at. -/
def blockInspects (s : BuddyAreas) (cur curK : Nat) : List Nat :=
  let s := { s with pages := (s.pages.setProperty cur (1 <<< curK)).setPageProperty cur }
  mergeInspects (maxOrder - 1 - curK) s cur curK

/-- The buddies that the loop of `buddy_free_pages` looks at, from the offset `off` on. -/
def freeLoopInspects (base n : Nat) : Nat → Nat → BuddyAreas → List Nat
  | 0, _, _ => []
  | fuel + 1, off, s =>
      if off < n then
        match orderOf fuel (n - off) with
        | .error _ => []
        | .ok order =>
            let curK := alignOrder (base + off) order
            blockInspects s (base + off) curK ++
              freeLoopInspects base n fuel (off + 1 <<< curK) (freeBlock s (base + off) curK)
      else []

/-- The buddies that `buddy_free_pages` looks at. -/
def buddyFreeInspects (fuel : Nat) (s : BuddyAreas) (base n : Nat) : List Nat :=
  freeLoopInspects base n fuel 0 s

end Ucore.Mm
