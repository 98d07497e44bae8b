import Ucore.Mm.Page
import Ucore.Mm.Pmm

/-!
# `Ucore.Mm.BuddyPmm`: the buddy page manager

The functions of `kern/mm/buddy_pmm.c` over `pages[]`, the links of the fifteen free
lists and the counters `nr_free`. A page is its index in `pages[]`, which is what
`page_index` computes. `buddy_max_order` is written and never read, so it is not here.

Three places of the source put a block on a free list with the same four statements, and
two take one off: `pushBlock` and `dropBlock`.

`size_t` is 64 bits wide. The only value that can outgrow it is `sz` of `order_of`.
-/

set_option autoImplicit false

namespace Ucore.Mm

open Ucore.Lib
open Ucore.Libs

/-- `MAX_ORDER`. The largest block has `2 ^ 14` pages. -/
def maxOrder : Nat := 15

/-- A node of the free list of some order. -/
abbrev BuddyNode := FreeNode Nat

/-- The state of the manager: `pages[]`, its bound `npage`, and `buddy_areas`. -/
structure BuddyAreas where
  pages : Pages
  npage : Nat
  links : Links BuddyNode
  nrFree : Nat → Nat

/-- The loop of `order_of`, with `sz` a 64-bit number. -/
def orderOfLoop (n : Nat) : Nat → Nat → Nat → Except Halt Nat
  | 0, _, _ => .error .fuel
  | fuel + 1, sz, k =>
      if sz < n then orderOfLoop n fuel ((sz <<< 1) % 2 ^ 64) (k + 1) else .ok k

/-- `order_of`. No power of two of 64 bits is at least `n` when `n` is above `2 ^ 63`. -/
def orderOf (fuel n : Nat) : Except Halt Nat := orderOfLoop n fuel 1 0

/-- The index of the buddy, when it is below `npage`. -/
def buddyOf (s : BuddyAreas) (base k : Nat) : Option Nat :=
  let buddyIdx := base ^^^ (1 <<< k)
  if s.npage ≤ buddyIdx then none else some buddyIdx

/-- `list_init` and `nr_free = 0` for the areas `0 .. i - 1`. -/
def buddyInitLoop : Nat → BuddyAreas → BuddyAreas
  | 0, s => s
  | i + 1, s =>
      let s := buddyInitLoop i s
      { s with
          links := listInit s.links (.head i)
          nrFree := Function.update s.nrFree i 0 }

/-- `buddy_init`. -/
def buddyInit (s : BuddyAreas) : BuddyAreas := buddyInitLoop maxOrder s

/-- Make `p` the head of a free block of order `k` and put it on the list of its order. -/
def pushBlock (s : BuddyAreas) (p k : Nat) : BuddyAreas :=
  { s with
      pages := (s.pages.setProperty p (1 <<< k)).setPageProperty p
      links := listAdd s.links (.head k) (.page p)
      nrFree := Function.update s.nrFree k (s.nrFree k + 1 <<< k) }

/-- Take the block `p` of order `k` off its list. -/
def dropBlock (s : BuddyAreas) (p k : Nat) : BuddyAreas :=
  { s with
      pages := s.pages.clearPageProperty p
      links := listDel s.links (.page p)
      nrFree := Function.update s.nrFree k (s.nrFree k - 1 <<< k) }

/-- The first loop of `buddy_init_memmap`. -/
def buddyClearLoop : Nat → Nat → Pages → Except Halt Pages
  | 0, _, pages => .ok pages
  | n + 1, p, pages =>
      if (pages p).flags.reserved then
        buddyClearLoop n (p + 1)
          (((pages.setFlags p .zero).setPageRef p 0).setProperty p 0)
      else .error .assert

/-- The largest order that fits: `d` more rounds are left before `k + 1 >= MAX_ORDER`
ends the loop. The result is the final `k`, with `max_fit = 1 << k`. -/
def maxFitLoop (globalIdx i n : Nat) : Nat → Nat → Nat
  | 0, k => k
  | d + 1, k =>
      if globalIdx % (1 <<< k <<< 1) = 0 ∧ i + (1 <<< k <<< 1) ≤ n then
        maxFitLoop globalIdx i n d (k + 1)
      else k

/-- The second loop of `buddy_init_memmap`, at offset `i`. -/
def buddyFillLoop (base n : Nat) : Nat → Nat → BuddyAreas → Except Halt BuddyAreas
  | 0, _, _ => .error .fuel
  | fuel + 1, i, s =>
      if i < n then
        let k := maxFitLoop (base + i) i n (maxOrder - 1) 0
        buddyFillLoop base n fuel (i + 1 <<< k) (pushBlock s (base + i) k)
      else .ok s

/-- `buddy_init_memmap`: the largest aligned blocks that fit, from the left. -/
def buddyInitMemmap (fuel : Nat) (s : BuddyAreas) (base n : Nat) : Except Halt BuddyAreas :=
  if n = 0 then .error .assert
  else do
    let pages ← buddyClearLoop n base s.pages
    buddyFillLoop base n fuel 0 { s with pages := pages }

/-- The search of `buddy_alloc_pages` for a list that is not empty, from the order `j`
on, with `d` orders left. -/
def findArea (l : Links BuddyNode) : Nat → Nat → Option Nat
  | 0, _ => none
  | d + 1, j => if !listEmpty l (.head j) then some j else findArea l d (j + 1)

/-- The split from the order `j` down to `k`: the upper half goes back each time. -/
def splitLoop (p k : Nat) : Nat → BuddyAreas → BuddyAreas
  | 0, s => s
  | j + 1, s => if k < j + 1 then splitLoop p k j (pushBlock s (p + 1 <<< j) j) else s

/-- The second half of `buddy_alloc_pages`: take the first block of order `j`. -/
def takeBlock (s : BuddyAreas) (j k : Nat) : Except Halt (Option Nat × BuddyAreas) :=
  match s.links.next (.head j) with
  | .head _ => .error .assert
  | .page p =>
      let s := splitLoop p k j (dropBlock s p j)
      .ok (some p, { s with pages := s.pages.setPageRef p 0 })

/-- `buddy_alloc_pages`: the first block of the smallest order that has one, split down. -/
def buddyAllocPages (fuel : Nat) (s : BuddyAreas) (n : Nat) :
    Except Halt (Option Nat × BuddyAreas) :=
  if n = 0 then .error .assert
  else do
    let k ← orderOf fuel n
    -- no list at all when `k` is `MAX_ORDER` or more
    match findArea s.links (maxOrder - k) k with
    | none => return (none, s)
    | some j => takeBlock s j k

/-- The largest order up to `curK` the index is aligned to. -/
def alignOrder (gidx : Nat) : Nat → Nat
  | 0 => 0
  | curK + 1 =>
      if gidx &&& (1 <<< (curK + 1) - 1) ≠ 0 then alignOrder gidx curK else curK + 1

/-- The merge loop of `buddy_free_pages` at the block `blk` of order `pk`, with `d`
orders left above it. -/
def mergeLoop : Nat → BuddyAreas → Nat → Nat → BuddyAreas × Nat × Nat
  | 0, s, blk, pk => (s, blk, pk)
  | d + 1, s, blk, pk =>
      match buddyOf s blk pk with
      -- `buddy_idx >= npage`: there is no such page
      | none => (s, blk, pk)
      | some buddy =>
          if !(s.pages buddy).flags.property || (s.pages buddy).property ≠ 1 <<< pk then
            (s, blk, pk)
          else
            let s := dropBlock s buddy pk
            -- the lower of the two is the head of the larger block
            let s := { s with pages := s.pages.clearPageProperty blk }
            mergeLoop d s (if buddy < blk then buddy else blk) (pk + 1)

/-- Free the one block `cur` of order `curK`. -/
def freeBlock (s : BuddyAreas) (cur curK : Nat) : BuddyAreas :=
  let s := { s with pages := (s.pages.setProperty cur (1 <<< curK)).setPageProperty cur }
  match mergeLoop (maxOrder - 1 - curK) s cur curK with
  | (s, blk, pk) => pushBlock s blk pk

/-- The loop of `buddy_free_pages` at offset `off`. -/
def buddyFreeLoop (base n : Nat) : Nat → Nat → BuddyAreas → Except Halt BuddyAreas
  | 0, _, _ => .error .fuel
  | fuel + 1, off, s =>
      if off < n then do
        let order ← orderOf fuel (n - off)
        let curK := alignOrder (base + off) order
        buddyFreeLoop base n fuel (off + 1 <<< curK) (freeBlock s (base + off) curK)
      else .ok s

/-- `buddy_free_pages`: the aligned blocks of the run, each merged with its buddies. -/
def buddyFreePages (fuel : Nat) (s : BuddyAreas) (base n : Nat) : Except Halt BuddyAreas :=
  if n = 0 then .error .assert
  else do
    let _ ← orderOf fuel n
    buddyFreeLoop base n fuel 0 s

/-- `buddy_nr_free_pages`. -/
def buddyNrFreePages (s : BuddyAreas) : Nat := ((List.range maxOrder).map s.nrFree).sum

/-- `buddy_pmm_manager`. -/
def buddyPmmManager : PmmManager BuddyAreas where
  init := buddyInit
  initMemmap := buddyInitMemmap
  allocPages := buddyAllocPages
  freePages := buddyFreePages
  nrFreePages := buddyNrFreePages

end Ucore.Mm
