import Ucore.Mm.Page
import Ucore.Mm.Pmm

/-!
# `Ucore.Mm.DefaultPmm`: the first-fit page manager

The functions of `kern/mm/default_pmm.c` over the free area: the page descriptors, the
links of the free list and the counter `nr_free`. The walks over the free list follow
the links as they are, well formed or not, so they carry fuel.

The address-ordered insertion is written out twice in the source, once in
`default_init_memmap` and once in `default_free_pages`. It is `insertLoop` here. In its
second branch the source adds the block behind the last one and does not leave the loop.
-/

set_option autoImplicit false

namespace Ucore.Mm

open Ucore.Lib
open Ucore.Libs

/-- A node of the one free list of this manager. -/
abbrev ListNode := FreeNode Unit

/-- The list head `free_list`. -/
abbrev freeListHead : ListNode := .head ()

/-- The state of the manager: `pages[]` and `free_area_t`. -/
structure FreeArea where
  pages : Pages
  links : Links ListNode
  nrFree : Nat

/-- `default_init`. -/
def defaultInit (s : FreeArea) : FreeArea :=
  { s with links := listInit s.links freeListHead, nrFree := 0 }

/-- The first loop of `default_init_memmap`: clear `n` descriptors from `p` on. -/
def initMemmapLoop : Nat → Nat → Pages → Except Halt Pages
  | 0, _, pages => .ok pages
  | n + 1, p, pages =>
      if (pages p).flags.reserved then
        initMemmapLoop n (p + 1)
          (((pages.setProperty p 0).setFlags p .zero).setPageRef p 0)
      else .error .assert

/-- The first loop of `default_free_pages`. -/
def freePagesLoop : Nat → Nat → Pages → Except Halt Pages
  | 0, _, pages => .ok pages
  | n + 1, p, pages =>
      if !(pages p).flags.reserved && !(pages p).flags.property then
        freePagesLoop n (p + 1) ((pages.setFlags p .zero).setPageRef p 0)
      else .error .assert

/-- The insertion loop, from the node `le` on. -/
def insertLoop (base : Nat) : Nat → Links ListNode → ListNode → Except Halt (Links ListNode)
  | 0, _, _ => .error .fuel
  | fuel + 1, l, le =>
      match l.next le with
      | .head _ => .ok l
      | .page page =>
          if base < page then .ok (listAddBefore l (.page page) (.page base))
          else if l.next (.page page) = freeListHead then
            -- No `break` here: the walk goes on from `page`, whose next node is now `base`.
            insertLoop base fuel (listAdd l (.page page) (.page base)) (.page page)
          else insertLoop base fuel l (.page page)

/-- The insertion of the block `base` into the free list. -/
def insertByAddress (fuel : Nat) (l : Links ListNode) (base : Nat) :
    Except Halt (Links ListNode) :=
  if listEmpty l freeListHead then .ok (listAdd l freeListHead (.page base))
  else insertLoop base fuel l freeListHead

/-- `default_init_memmap`. -/
def defaultInitMemmap (fuel : Nat) (s : FreeArea) (base n : Nat) : Except Halt FreeArea :=
  if n = 0 then .error .assert
  else do
    let pages ← initMemmapLoop n base s.pages
    let links ← insertByAddress fuel s.links base
    return { pages := (pages.setProperty base n).setPageProperty base
             links := links
             nrFree := uint (s.nrFree + n) }

/-- The search loop of `default_alloc_pages`, from the node `le` on. -/
def firstFitLoop (pages : Pages) (l : Links ListNode) (n : Nat) :
    Nat → ListNode → Except Halt (Option Nat)
  | 0, _ => .error .fuel
  | fuel + 1, le =>
      match l.next le with
      | .head _ => .ok none
      | .page p =>
          if n ≤ (pages p).property then .ok (some p)
          else firstFitLoop pages l n fuel (.page p)

/-- The second half of `default_alloc_pages`: take the first `n` pages of the block `page`. -/
def takePages (s : FreeArea) (page n : Nat) : FreeArea :=
  let prev := s.links.prev (.page page)
  let links := listDel s.links (.page page)
  let s' : FreeArea :=
    -- `page->property > n`: the remainder becomes a block behind the one in front
    if n < (s.pages page).property then
      { s with
          pages := (s.pages.setProperty (page + n) ((s.pages page).property - n)).setPageProperty
            (page + n)
          links := listAdd links prev (.page (page + n)) }
    else { s with links := links }
  { s' with nrFree := uint (s'.nrFree - n), pages := s'.pages.clearPageProperty page }

/-- `default_alloc_pages`: the first block that is large enough. -/
def defaultAllocPages (fuel : Nat) (s : FreeArea) (n : Nat) :
    Except Halt (Option Nat × FreeArea) :=
  if n = 0 then .error .assert
  else if s.nrFree < n then .ok (none, s)
  else do
    match ← firstFitLoop s.pages s.links n fuel freeListHead with
    | none => return (none, s)
    | some page => return (some page, takePages s page n)

/-- The merge with the block in front: the source then calls that block `base`. -/
def mergePrev (s : FreeArea) (base : Nat) : FreeArea × Nat :=
  match s.links.prev (.page base) with
  | .head _ => (s, base)
  | .page p =>
      if p + (s.pages p).property = base then
        ({ s with
            pages := (s.pages.setProperty p
              ((s.pages p).property + (s.pages base).property)).clearPageProperty base
            links := listDel s.links (.page base) }, p)
      else (s, base)

/-- The merge with the block behind. -/
def mergeNext (s : FreeArea) (base : Nat) : FreeArea :=
  match s.links.next (.page base) with
  | .head _ => s
  | .page p =>
      if base + (s.pages base).property = p then
        { s with
            pages := (s.pages.setProperty base
              ((s.pages base).property + (s.pages p).property)).clearPageProperty p
            links := listDel s.links (.page p) }
      else s

/-- `default_free_pages`: insert the block, then merge it with its neighbours. -/
def defaultFreePages (fuel : Nat) (s : FreeArea) (base n : Nat) : Except Halt FreeArea :=
  if n = 0 then .error .assert
  else do
    let pages ← freePagesLoop n base s.pages
    let links ← insertByAddress fuel s.links base
    let s' : FreeArea :=
      { pages := (pages.setProperty base n).setPageProperty base
        links := links
        nrFree := uint (s.nrFree + n) }
    -- the block in front first, which then is the block to merge with the one behind
    let (s', base) := mergePrev s' base
    return mergeNext s' base

/-- `default_nr_free_pages`. -/
def defaultNrFreePages (s : FreeArea) : Nat := s.nrFree

/-- `default_pmm_manager`. -/
def defaultPmmManager : PmmManager FreeArea where
  init := defaultInit
  initMemmap := defaultInitMemmap
  allocPages := defaultAllocPages
  freePages := defaultFreePages
  nrFreePages := defaultNrFreePages

end Ucore.Mm
