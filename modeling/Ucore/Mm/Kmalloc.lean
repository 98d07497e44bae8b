import Ucore.Lib.Halt
import Ucore.Lib.Span

/-!
# `Ucore.Mm.Kmalloc`: the allocator of the kernel

The functions of `kern/mm/kmalloc.c`. Memory is cut into units of `SLOB_UNIT` bytes, and an
address is the number of a unit, so that `b + b->units` of the source is a sum. A unit has two
words: `units` and `next` of a `slob_t`, or `order` and `pages` of a `bigblock_t`, which has its
`next` in the unit behind. What a caller writes into its block is written into the same words.

`alloc_pages` is a parameter: a function of the page runs handed out so far that answers with
pages that lie apart from all of them. The loops follow the links as they are, so they carry
fuel. Every caller of `slob_alloc` passes no alignment, and that branch is left out.
-/

set_option autoImplicit false

namespace Ucore.Mm

open Ucore.Lib

/-- `sizeof(slob_t)` -/
abbrev SLOB_UNIT : Nat := 16

/-- `PAGE_SIZE`, the bytes of a page. -/
abbrev PAGE_SIZE : Nat := 4096

/-- The units of a page. -/
abbrev PAGE_UNITS : Nat := 256

/-- `sizeof(bigblock_t)` -/
abbrev BIGBLOCK_SIZE : Nat := 24

/-- `SLOB_UNITS` -/
def SLOB_UNITS (size : Nat) : Nat := (size + SLOB_UNIT - 1) / SLOB_UNIT

/-- The span of `n` pages from the unit `p` on. -/
def pageRun (r : Nat × Nat) : Span := ⟨r.1, r.2 * PAGE_UNITS⟩

/-- A page allocator beside the static block `arena`: the pages that it returns are in no run
handed out, and they do not touch the static block. -/
structure PageAlloc (arena : Nat) where
  /-- The answer to `alloc_pages(n)` when the given runs are handed out. -/
  alloc : List (Nat × Nat) → Nat → Option Nat
  pos : ∀ {runs n p}, alloc runs n = some p → 0 < p ∧ p % PAGE_UNITS = 0
  apart : ∀ {runs n p}, alloc runs n = some p → ∀ r ∈ runs, (pageRun (p, n)).Disjoint (pageRun r)
  away : ∀ {runs n p}, alloc runs n = some p →
    (pageRun (p, n)).stop < arena ∨ arena + 1 < p

/-- The words of memory, the two list heads, and the page runs handed out to this allocator. -/
structure Kmem where
  lo : Nat → Nat
  hi : Nat → Nat
  slobfree : Nat
  bigblocks : Nat
  runs : List (Nat × Nat)

namespace Kmem

variable (k : Kmem)

/-- `b->units` -/
def units (b : Nat) : Nat := k.lo b

/-- `b->next` -/
def next (b : Nat) : Nat := k.hi b

/-- `b->units = n` -/
def setUnits (b n : Nat) : Kmem := { k with lo := Function.update k.lo b n }

/-- `b->next = n` -/
def setNext (b n : Nat) : Kmem := { k with hi := Function.update k.hi b n }

/-- `bb->order` -/
def order (bb : Nat) : Nat := k.lo bb

/-- `bb->pages` -/
def pages (bb : Nat) : Nat := k.hi bb

/-- `bb->next` -/
def bigNext (bb : Nat) : Nat := k.lo (bb + 1)

/-- `bb->order = n` -/
def setOrder (bb n : Nat) : Kmem := { k with lo := Function.update k.lo bb n }

/-- `bb->pages = n` -/
def setPages (bb n : Nat) : Kmem := { k with hi := Function.update k.hi bb n }

/-- `bb->next = n` -/
def setBigNext (bb n : Nat) : Kmem := { k with lo := Function.update k.lo (bb + 1) n }

/-- Before the first call: the list has the static block alone. -/
def Init (arena : Nat) : Prop :=
  arena ≠ 0 ∧ k.units arena = 1 ∧ k.next arena = arena ∧ k.slobfree = arena ∧ k.bigblocks = 0 ∧
    k.runs = []

end Kmem

variable {arena : Nat}

/-- `__slob_get_free_pages`: the pages, or NULL. -/
def slobGetFreePages (pa : PageAlloc arena) (k : Kmem) (order : Nat) : Nat × Kmem :=
  match pa.alloc k.runs (2 ^ order) with
  | none => (0, k)
  | some p => (p, { k with runs := (p, 2 ^ order) :: k.runs })

/-- `__slob_free_pages` -/
def slobFreePages (k : Kmem) (kva order : Nat) : Kmem :=
  { k with runs := k.runs.erase (kva, 2 ^ order) }

/-- The loop of `slob_free`: the block behind which `b` is put. -/
def reinsertionPoint (k : Kmem) (b : Nat) : Nat → Nat → Except Halt Nat
  | 0, _ => .error .fuel
  | fuel + 1, cur =>
      -- between two blocks, or at the place where the list wraps around
      if cur < b ∧ b < k.next cur then .ok cur
      else if k.next cur ≤ cur ∧ (cur < b ∨ b < k.next cur) then .ok cur
      else reinsertionPoint k b fuel (k.next cur)

/-- The merge of `slob_free` with the block behind `cur`. -/
def mergeNextSlob (k : Kmem) (cur b : Nat) : Kmem :=
  if b + k.units b = k.next cur then
    (k.setUnits b (k.units b + k.units (k.next cur))).setNext b (k.next (k.next cur))
  else k.setNext b (k.next cur)

/-- The merge of `slob_free` with `cur`. -/
def mergePrevSlob (k : Kmem) (cur b : Nat) : Kmem :=
  if cur + k.units cur = b then
    (k.setUnits cur (k.units cur + k.units b)).setNext cur (k.next b)
  else k.setNext cur b

/-- `slob_free`: put the block back by its address and merge it with both neighbours. -/
def slobFree (fuel : Nat) (k : Kmem) (block size : Nat) : Except Halt Kmem :=
  if block = 0 then .ok k
  else do
    let k := if size = 0 then k else k.setUnits block (SLOB_UNITS size)
    let cur ← reinsertionPoint k block fuel k.slobfree
    let k := mergePrevSlob (mergeNextSlob k cur block) cur block
    return { k with slobfree := cur }

/-- The search of `slob_alloc` up to `slobfree`: the block with room enough, and the one in
front of it. -/
def slobSearch (k : Kmem) (units : Nat) : Nat → Nat → Nat → Except Halt (Option (Nat × Nat))
  | 0, _, _ => .error .fuel
  | fuel + 1, prev, cur =>
      if units ≤ k.units cur then .ok (some (prev, cur))
      else if cur = k.slobfree then .ok none
      else slobSearch k units fuel cur (k.next cur)

/-- The exact fit and the fragment of `slob_alloc`. -/
def slobTake (k : Kmem) (units prev cur : Nat) : Kmem :=
  let k' :=
    -- an exact fit is unlinked, and otherwise the rest of the block takes its place
    if k.units cur = units then k.setNext prev (k.next cur)
    else
      let k₁ := k.setNext prev (cur + units)
      let k₂ := k₁.setUnits (k₁.next prev) (k₁.units cur - units)
      let k₃ := k₂.setNext (k₂.next prev) (k₂.next cur)
      k₃.setUnits cur units
  { k' with slobfree := prev }

/-- `slob_alloc` behind its assertion: search, and get a page when no block has room. -/
def slobAllocLoop (pa : PageAlloc arena) (size : Nat) : Nat → Kmem → Except Halt (Nat × Kmem)
  | 0, _ => .error .fuel
  | fuel + 1, k => do
      match ← slobSearch k (SLOB_UNITS size) fuel k.slobfree (k.next k.slobfree) with
      | some (prev, cur) => return (cur, slobTake k (SLOB_UNITS size) prev cur)
      | none =>
          -- no block has room: a new page is put on the list with `slob_free`, and the search
          -- starts again
          if size = PAGE_SIZE then return (0, k)
          else
            let (cur, k) := slobGetFreePages pa k 0
            if cur = 0 then return (0, k)
            else
              let k ← slobFree fuel k cur PAGE_SIZE
              slobAllocLoop pa size fuel k

/-- `slob_alloc` with its assertion. -/
def slobAlloc (fuel : Nat) (pa : PageAlloc arena) (k : Kmem) (size : Nat) :
    Except Halt (Nat × Kmem) :=
  if size + SLOB_UNIT < PAGE_SIZE then slobAllocLoop pa size fuel k else .error .assert

/-- `find_order`: the size is an `int`. -/
def findOrder (size : Int) : Nat := if 4096 < size then findOrder (size / 2) + 1 else 0
  termination_by size.toNat
  decreasing_by omega

/-- A `size_t` as an `int`. -/
def toInt (size : Nat) : Int := (BitVec.ofNat 32 size).toInt

/-- `kmalloc`: the address, or NULL. -/
def kmalloc (fuel : Nat) (pa : PageAlloc arena) (k : Kmem) (size : Nat) :
    Except Halt (Nat × Kmem) :=
  if size < PAGE_SIZE - SLOB_UNIT then do
    -- a small block with its header; the user part begins one unit behind it
    let (m, k) ← slobAlloc fuel pa k (size + SLOB_UNIT)
    return (if m = 0 then 0 else m + 1, k)
  else do
    -- a large one is pages of its own, with a record on the list of the big blocks
    let (bb, k) ← slobAlloc fuel pa k BIGBLOCK_SIZE
    if bb = 0 then return (0, k)
    else
      let k := k.setOrder bb (findOrder (toInt size))
      let (pages, k) := slobGetFreePages pa k (k.order bb)
      let k := k.setPages bb pages
      if pages = 0 then
        let k ← slobFree fuel k bb BIGBLOCK_SIZE
        return (0, k)
      else
        let k := k.setBigNext bb k.bigblocks
        return (pages, { k with bigblocks := bb })

/-- The loop of `kfree` over the big blocks: the block with the pages, and the one in front of
it, if there is one. -/
def findBig (k : Kmem) (block : Nat) :
    Nat → Option Nat → Nat → Except Halt (Option (Option Nat × Nat))
  | 0, _, _ => .error .fuel
  | fuel + 1, last, bb =>
      if bb = 0 then .ok none
      else if k.pages bb = block then .ok (some (last, bb))
      else findBig k block fuel (some bb) (k.bigNext bb)

/-- `*last = bb->next` -/
def unlinkBig (k : Kmem) (last : Option Nat) (bb : Nat) : Kmem :=
  match last with
  | none => { k with bigblocks := k.bigNext bb }
  | some last => k.setBigNext last (k.bigNext bb)

/-- The big block that `kfree` is called with; only one that is page-aligned is looked for. -/
def bigOf (fuel : Nat) (k : Kmem) (block : Nat) : Except Halt (Option (Option Nat × Nat)) :=
  if block % PAGE_UNITS = 0 then findBig k block fuel none k.bigblocks else .ok none

/-- `kfree`: the pages of a big block, or a block of the list with its header. -/
def kfree (fuel : Nat) (k : Kmem) (block : Nat) : Except Halt Kmem :=
  if block = 0 then .ok k
  else do
    match ← bigOf fuel k block with
    | some (last, bb) =>
        let k := unlinkBig k last bb
        let k := slobFreePages k block (k.order bb)
        slobFree fuel k bb BIGBLOCK_SIZE
    | none => slobFree fuel k (block - 1) 0

/-! ### Runs -/

/-- A block that is live: the address and the size of the call, and the units of the block, its
header included. -/
structure Alloc where
  ptr : Nat
  size : Nat
  span : Span
  deriving DecidableEq

/-- The block that `kmalloc` has returned. -/
def Kmem.given (k : Kmem) (ptr size : Nat) : Alloc where
  ptr := ptr
  size := size
  span :=
    if size < PAGE_SIZE - SLOB_UNIT then ⟨ptr - 1, k.units (ptr - 1)⟩
    else pageRun (ptr, 2 ^ findOrder (toInt size))

/-- Calls of `kmalloc` and `kfree` and writes into live blocks, one after another. The sizes
satisfy `ok`. -/
inductive KmallocRun (arena : Nat) (ok : Nat → Prop) : Kmem → List Alloc → Prop
  | init (k : Kmem) : k.Init arena → KmallocRun arena ok k []
  | malloc {k k' : Kmem} {live : List Alloc} (fuel : Nat) (pa : PageAlloc arena) (ptr size : Nat) :
      KmallocRun arena ok k live → 0 < size → ok size → kmalloc fuel pa k size = .ok (ptr, k') →
      ptr ≠ 0 → KmallocRun arena ok k' (k'.given ptr size :: live)
  | mallocNull {k k' : Kmem} {live : List Alloc} (fuel : Nat) (pa : PageAlloc arena) (size : Nat) :
      KmallocRun arena ok k live → 0 < size → ok size → kmalloc fuel pa k size = .ok (0, k') →
      KmallocRun arena ok k' live
  | free {k k' : Kmem} {live : List Alloc} (fuel : Nat) (a : Alloc) :
      KmallocRun arena ok k live → a ∈ live → kfree fuel k a.ptr = .ok k' →
      KmallocRun arena ok k' (live.erase a)
  | write {k : Kmem} {live : List Alloc} (a : Alloc) (lo hi : Nat → Nat) :
      KmallocRun arena ok k live → a ∈ live →
      (∀ u, u < a.ptr ∨ a.span.stop ≤ u → lo u = k.lo u ∧ hi u = k.hi u) →
      KmallocRun arena ok { k with lo := lo, hi := hi } live

/-- The units of the blocks on the free list. -/
def Kmem.Free (k : Kmem) (u : Nat) : Prop :=
  ∃ i, u ∈ (⟨k.next^[i] k.slobfree, k.units (k.next^[i] k.slobfree)⟩ : Span)

/-- The records of the big blocks, along their list. -/
inductive Kmem.Record (k : Kmem) : Nat → Prop
  | head : k.bigblocks ≠ 0 → Record k k.bigblocks
  | next {bb : Nat} : Record k bb → k.bigNext bb ≠ 0 → Record k (k.bigNext bb)

end Ucore.Mm
