import Ucore.Lib.Fiber
import Ucore.Lib.Halt
import Ucore.Mm.Mmu

/-!
# `Ucore.Mm.PageTable`: page tables over reference-counted pages

The page table functions of `kern/mm/pmm.c`, which lab 5 and lab 8 share. `Vm κ` is the
physical memory together with the page directories of any number of address spaces
`κ`: the free pages, the field `ref` and the contents of each page, and the tables as a
tree that records the frame each table lives in. A pointer to a leaf entry is the
address space and the three indices, a `Slot`.

The page allocator is a parameter, `PageOracle`: it answers each request with a page that
is free, or with none. So every allocator and every pattern of failures is one oracle.
`refused` remembers whether it ever said no.

`log` is a record of what happened to pages, newest first. Nothing reads it: it is there
to say when a page was returned.

A page directory here is what user addresses reach. The entry of `boot_pgdir` that maps
the kernel with one leaf of a gigabyte is not part of it.
-/

set_option autoImplicit false

namespace Ucore.Mm

open Ucore.Lib

/-- The page allocator, as its callers see it. -/
structure PageOracle where
  pick : Nat → (Frame → Bool) → Option Frame
  pick_free : ∀ {n : Nat} {free : Frame → Bool} {p : Frame}, pick n free = some p → free p = true

/-- What can happen to a page: `alloc_page` returned it, `free_page` was called on it, a
leaf entry began to map it, a leaf entry stopped mapping it. -/
inductive PageEvent
  | alloc (p : Frame)
  | free (p : Frame)
  | map (p : Frame)
  | unmap (p : Frame)
  deriving DecidableEq, Repr

/-- A last-level table and the frame it lives in. -/
structure PageTable where
  frame : Frame
  pte : Fin 512 → Pte

/-- A middle-level table and the frame it lives in. -/
structure PageDir0 where
  frame : Frame
  pde : Fin 512 → Option PageTable

/-- Write one entry of a last-level table. -/
def PageTable.set (t : PageTable) (m : Fin 512) (e : Pte) : PageTable :=
  { t with pte := Function.update t.pte m e }

/-- Write one entry of a middle-level table. -/
def PageDir0.set (d : PageDir0) (j : Fin 512) (t : PageTable) : PageDir0 :=
  { d with pde := Function.update d.pde j (some t) }

/-- Setting an entry does not move the table. -/
@[simp] theorem PageTable.set_frame (t : PageTable) (m : Fin 512) (e : Pte) :
    (t.set m e).frame = t.frame := rfl

/-- Setting a table does not move the directory. -/
@[simp] theorem PageDir0.set_frame (d : PageDir0) (j : Fin 512) (t : PageTable) :
    (d.set j t).frame = d.frame := rfl

/-- The table that has been set is found. -/
@[simp] theorem PageDir0.set_pde_self (d : PageDir0) (j : Fin 512) (t : PageTable) :
    (d.set j t).pde j = some t := Function.update_self ..

/-- The other tables stay. -/
theorem PageDir0.set_pde_of_ne (d : PageDir0) {j j' : Fin 512} (t : PageTable) (h : j' ≠ j) :
    (d.set j t).pde j' = d.pde j' := Function.update_of_ne h ..

/-- The entry at two indices below a middle-level table; zero where no table is. -/
def PageDir0.leaf (d : PageDir0) (j m : Fin 512) : Pte :=
  match d.pde j with
  | none => .zero
  | some t => t.pte m

/-- A page directory. -/
abbrev PgDir := Fin 512 → Option PageDir0

/-- The bytes of a page. -/
abbrev PageData := Fin 4096 → UInt8

/-- The place of a leaf entry. -/
abbrev Slot (κ : Type) := κ × Vpn

/-- The free pages, the reference counts and bytes of all pages, and the page directories. -/
structure Vm (κ : Type) where
  free : Frame → Bool
  ref : Frame → Int
  data : Frame → PageData
  dirs : κ → PgDir
  requests : Nat
  refused : Bool
  log : List PageEvent

namespace Vm

variable {κ : Type} [DecidableEq κ]

/-- The table a slot lies in exists. -/
def hasTable (s : Vm κ) (x : Slot κ) : Bool :=
  match s.dirs x.1 x.2.1 with
  | none => false
  | some d => (d.pde x.2.2.1).isSome

/-- `*ptep`; an entry of a table that does not exist is zero. -/
def leaf (s : Vm κ) (x : Slot κ) : Pte :=
  match s.dirs x.1 x.2.1 with
  | none => .zero
  | some d => d.leaf x.2.2.1 x.2.2.2

/-- The frame of a table. -/
def IsTable (s : Vm κ) (p : Frame) : Prop :=
  ∃ k i d, s.dirs k i = some d ∧ (d.frame = p ∨ ∃ j t, d.pde j = some t ∧ t.frame = p)

/-- The record of a change of a leaf entry, newest first. -/
def leafEvents (old new : Pte) : List PageEvent :=
  if old.target = new.target then []
  else (new.target.map .map).toList ++ (old.target.map .unmap).toList

/-- Put `d` at one place of a page directory. -/
def setPde (s : Vm κ) (k : κ) (i : Fin 512) (d : PageDir0) : Vm κ :=
  { s with dirs := Function.update s.dirs k (Function.update (s.dirs k) i (some d)) }

/-- `*ptep = e`. -/
def setLeaf (s : Vm κ) (x : Slot κ) (e : Pte) : Vm κ :=
  match s.dirs x.1 x.2.1 with
  | none => s
  | some d =>
      match d.pde x.2.2.1 with
      | none => s
      | some t =>
          { s.setPde x.1 x.2.1 (d.set x.2.2.1 (t.set x.2.2.2 e)) with
              log := leafEvents (s.leaf x) e ++ s.log }

/-- `set_page_ref`. -/
def setPageRef (s : Vm κ) (p : Frame) (val : Int) : Vm κ :=
  { s with ref := Function.update s.ref p val }

/-- `page_ref_inc`. -/
def pageRefInc (s : Vm κ) (p : Frame) : Vm κ := s.setPageRef p (s.ref p + 1)

/-- `page_ref_dec`. -/
def pageRefDec (s : Vm κ) (p : Frame) : Vm κ := s.setPageRef p (s.ref p - 1)

/-- `memcpy` of a whole page. -/
def copyPage (s : Vm κ) (dst src : Frame) : Vm κ :=
  { s with data := Function.update s.data dst (s.data src) }

end Vm

section Functions

variable {κ : Type} [DecidableEq κ] (e : PageOracle)

open Vm

/-- `alloc_page`. A request that is refused is recorded. -/
def allocPage (s : Vm κ) : Option Frame × Vm κ :=
  match e.pick s.requests s.free with
  | none => (none, { s with requests := s.requests + 1, refused := true })
  | some p =>
      (some p, { s with
        requests := s.requests + 1
        free := Function.update s.free p false
        log := .alloc p :: s.log })

/-- `free_page`; the page managers reset `ref`. -/
def freePage (s : Vm κ) (p : Frame) : Vm κ :=
  { s with
      free := Function.update s.free p true
      ref := Function.update s.ref p 0
      log := .free p :: s.log }

/-- The first half of `get_pte`: the entry `*pdep1`, made valid if need be. -/
def getPde1 (s : Vm κ) (k : κ) (la : Nat) (create : Bool) : Bool × Vm κ :=
  match s.dirs k (pdx1 la) with
  | some _ => (true, s)
  | none =>
      if !create then (false, s)
      else
        match allocPage e s with
        | (none, s) => (false, s)
        | (some page, s) =>
            let s := s.setPageRef page 1
            (true, s.setPde k (pdx1 la) ⟨page, fun _ => none⟩)

/-- The second half of `get_pte`: the entry `*pdep0` below a valid `*pdep1`. -/
def getPde0 (s : Vm κ) (k : κ) (la : Nat) (create : Bool) : Bool × Vm κ :=
  match s.dirs k (pdx1 la) with
  | none => (false, s)
  | some d =>
      match d.pde (pdx0 la) with
      | some _ => (true, s)
      | none =>
          if !create then (false, s)
          else
            match allocPage e s with
            | (none, s) => (false, s)
            | (some page, s) =>
                let s := s.setPageRef page 1
                (true, s.setPde k (pdx1 la) (d.set (pdx0 la) ⟨page, fun _ => .zero⟩))

/-- `get_pte`; whether the result is a pointer. The pointer is the slot `(k, vpn la)`. -/
def getPte (s : Vm κ) (k : κ) (la : Nat) (create : Bool) : Bool × Vm κ :=
  match getPde1 e s k la create with
  | (false, s) => (false, s)
  | (true, s) => getPde0 e s k la create

/-- `page_remove_pte`. -/
def pageRemovePte (s : Vm κ) (x : Slot κ) : Vm κ :=
  if (s.leaf x).valid then
    let page := (s.leaf x).ppn
    let s := s.pageRefDec page
    let s := if s.ref page = 0 then freePage s page else s
    s.setLeaf x .zero
  else s

/-- `E_INVAL` of `libs/error.h`. -/
def eInval : Int := 3

/-- `E_NO_MEM`. -/
def eNoMem : Int := 4

/-- `page_insert` from `page_ref_inc` on, at the entry `x`. -/
def insertPte (s : Vm κ) (x : Slot κ) (page : Frame) (perm : PteFlags) : Vm κ :=
  let s := s.pageRefInc page
  let s :=
    if (s.leaf x).valid then
      if (s.leaf x).ppn = page then s.pageRefDec page else pageRemovePte s x
    else s
  s.setLeaf x (pteCreate page perm)

/-- `page_insert`: map `page` at `la`, in place of what was mapped there. -/
def pageInsert (s : Vm κ) (k : κ) (page : Frame) (la : Nat) (perm : PteFlags) : Int × Vm κ :=
  match getPte e s k la true with
  | (false, s) => (-eNoMem, s)
  | (true, s) => (0, insertPte s (k, vpn la) page perm)

/-- `page_remove`. -/
def pageRemove (s : Vm κ) (k : κ) (la : Nat) : Vm κ :=
  match getPte e s k la false with
  | (false, s) => s
  | (true, s) => pageRemovePte s (k, vpn la)

/-- One round of the loop of `unmap_range`: the next address and the state. -/
def unmapRangeStep (k : κ) (start : Nat) (s : Vm κ) : Nat × Vm κ :=
  match getPte e s k start false with
  | (false, s) => (roundDown (start + ptSize) ptSize, s)
  | (true, s) =>
      (start + pgSize,
        if s.leaf (k, vpn start) ≠ .zero then pageRemovePte s (k, vpn start) else s)

/-- The loop of `unmap_range`. -/
def unmapRangeLoop (k : κ) (stop : Nat) : Nat → Nat → Vm κ → Except Halt (Vm κ)
  | 0, _, _ => .error .fuel
  | fuel + 1, start, s =>
      match unmapRangeStep e k start s with
      | (start, s) => if start ≠ 0 ∧ start < stop then unmapRangeLoop k stop fuel start s else .ok s

/-- `unmap_range`. Every round moves `start` up, so `stop` rounds are enough. -/
def unmapRange (s : Vm κ) (k : κ) (start stop : Nat) : Except Halt (Vm κ) :=
  if start % pgSize = 0 ∧ stop % pgSize = 0 ∧ userAccess start stop = true then
    unmapRangeLoop e k stop stop start s
  else .error .assert

end Functions

end Ucore.Mm
