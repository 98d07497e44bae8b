import Mathlib.Logic.Function.Basic

/-!
# `Ucore.Mm.Heap`: the kernel heap

`kmalloc` and `kfree` as their callers see them. `HeapOracle` answers each request with an address
that is not in use, or with none, so every allocator and every pattern of failures is one oracle.
`log` is a record of what happened, newest first. Nothing reads it.

A caller gets an address that is not in use until it is given back, and that is all that the
functions of `vmm.c` and `proc.c` rely on. The allocator behind it has its own model
(`Ucore.Mm.Kmalloc`), which says how it keeps this.
-/

set_option autoImplicit false

namespace Ucore.Mm

/-- The allocator. -/
structure HeapOracle where
  pick : Nat → (Nat → Bool) → Option Nat
  pick_fresh : ∀ {n : Nat} {live : Nat → Bool} {p : Nat}, pick n live = some p → live p = false

/-- `kmalloc` returned an address, or `kfree` was called with it. -/
inductive HeapEvent
  | alloc (p : Nat)
  | free (p : Nat)
  deriving DecidableEq, Repr

/-- The addresses in use, the number of requests so far, and the record of what happened. -/
structure Heap where
  live : Nat → Bool
  requests : Nat
  log : List HeapEvent

namespace Heap

variable (s : Heap)

/-- `kmalloc`: an address, or none. Either way the request is counted. -/
def kmalloc (h : HeapOracle) : Option Nat × Heap :=
  match h.pick s.requests s.live with
  | none => (none, { s with requests := s.requests + 1 })
  | some p =>
      (some p,
        { live := Function.update s.live p true
          requests := s.requests + 1
          log := .alloc p :: s.log })

/-- `kfree`. -/
def kfree (p : Nat) : Heap :=
  { s with live := Function.update s.live p false, log := .free p :: s.log }

end Heap

end Ucore.Mm
