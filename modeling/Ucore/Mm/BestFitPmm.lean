import Ucore.Mm.DefaultPmm

/-!
# `Ucore.Mm.BestFitPmm`: the best-fit page manager

The functions of `kern/mm/best_fit_pmm.c` of lab 2. But for the search in
`best_fit_alloc_pages` they are, statement by statement, those of `default_pmm.c`, the insertion
loop with its missing `break` included. The search goes through the whole free list and
remembers the smallest block so far that is large enough.
-/

set_option autoImplicit false

namespace Ucore.Mm

open Ucore.Lib
open Ucore.Libs

/-- `best_fit_init`. -/
def bestFitInit (s : FreeArea) : FreeArea := defaultInit s

/-- `best_fit_init_memmap`. -/
def bestFitInitMemmap (fuel : Nat) (s : FreeArea) (base n : Nat) : Except Halt FreeArea :=
  defaultInitMemmap fuel s base n

/-- The search loop of `best_fit_alloc_pages`, from the node `le` on, with the local variables
`page` and `min_size`. -/
def bestFitLoop (pages : Pages) (l : Links ListNode) (n : Nat) :
    Nat → ListNode → Option Nat → Nat → Except Halt (Option Nat)
  | 0, _, _, _ => .error .fuel
  | fuel + 1, le, page, minSize =>
      match l.next le with
      | .head _ => .ok page
      | .page p =>
          if n ≤ (pages p).property ∧ (pages p).property < minSize then
            bestFitLoop pages l n fuel (.page p) (some p) (pages p).property
          else bestFitLoop pages l n fuel (.page p) page minSize

/-- `best_fit_alloc_pages`. The sum `nr_free + 1` is one of `unsigned int`. -/
def bestFitAllocPages (fuel : Nat) (s : FreeArea) (n : Nat) :
    Except Halt (Option Nat × FreeArea) :=
  if n = 0 then .error .assert
  else if s.nrFree < n then .ok (none, s)
  else do
    match ← bestFitLoop s.pages s.links n fuel freeListHead none (uint (s.nrFree + 1)) with
    | none => return (none, s)
    | some page => return (some page, takePages s page n)

/-- `best_fit_free_pages`. -/
def bestFitFreePages (fuel : Nat) (s : FreeArea) (base n : Nat) : Except Halt FreeArea :=
  defaultFreePages fuel s base n

/-- `best_fit_nr_free_pages`. -/
def bestFitNrFreePages (s : FreeArea) : Nat := s.nrFree

/-- `best_fit_pmm_manager`. -/
def bestFitPmmManager : PmmManager FreeArea where
  init := bestFitInit
  initMemmap := bestFitInitMemmap
  allocPages := bestFitAllocPages
  freePages := bestFitFreePages
  nrFreePages := bestFitNrFreePages

end Ucore.Mm
