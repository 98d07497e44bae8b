import Ucore.Lib.Halt
import Ucore.Lib.Span

/-!
# `Ucore.Mm.Pmm`: page managers and their runs

`struct pmm_manager` is the interface of a page manager. A client initialises it, hands it one
region, and then allocates and frees. `PmmSys` is the manager's state together with what the client
holds: one span `⟨base, n⟩` for each allocation, with the `n` it was requested with. The client's
side of the contract is `Legal`: it frees what it holds, with the same `base` and `n`, and then no
longer holds it.

`Run C` is any sequence of calls that return, each made in a state where the condition `C` on the
state and the call holds. `Always` is the condition that always holds.

The managers of lab 2 are values of `PmmManager`. A theorem about one of them is about `Run` from a
state in which the region has been handed over (`Start`), and the fuel of each call is its own.
`execAll` is a sequence of calls that is evaluated, for runs on fixed inputs.
-/

set_option autoImplicit false

namespace Ucore.Mm

open Ucore.Lib

/-- `struct pmm_manager`, the functions of one manager with state `σ`. A call that walks
a linked structure takes fuel. -/
structure PmmManager (σ : Type) where
  init : σ → σ
  initMemmap : Nat → σ → Nat → Nat → Except Halt σ
  allocPages : Nat → σ → Nat → Except Halt (Option Nat × σ)
  freePages : Nat → σ → Nat → Nat → Except Halt σ
  nrFreePages : σ → Nat

/-- The calls a client makes. -/
inductive PmmOp
  | alloc (n : Nat)
  | free (b : Span)

/-- A manager and the allocations its client holds. -/
structure PmmSys (σ : Type) where
  mgr : σ
  live : List Span

namespace PmmManager

variable {σ : Type} (m : PmmManager σ)

/-- One call, with the client's record of its allocations. -/
def exec (fuel : Nat) (s : PmmSys σ) : PmmOp → Except Halt (PmmSys σ)
  | .alloc n => do
      match ← m.allocPages fuel s.mgr n with
      | (some p, mgr) => return ⟨mgr, ⟨p, n⟩ :: s.live⟩
      | (none, mgr) => return ⟨mgr, s.live⟩
  | .free b => do
      let mgr ← m.freePages fuel s.mgr b.start b.len
      return ⟨mgr, s.live.erase b⟩

/-- The client frees only what it holds. -/
def Legal (s : PmmSys σ) : PmmOp → Prop
  | .alloc _ => True
  | .free b => b ∈ s.live

instance (s : PmmSys σ) (op : PmmOp) : Decidable (Legal s op) := by
  cases op <;> simp only [Legal] <;> infer_instance

/-- The condition every call meets. -/
def Always (_ : PmmSys σ) (_ : PmmOp) : Prop := True

/-- The states after any sequence of returning calls that all meet `C`. -/
inductive Run (C : PmmSys σ → PmmOp → Prop) (s : PmmSys σ) : PmmSys σ → Prop
  | refl : Run C s s
  | step {t u : PmmSys σ} {fuel : Nat} {op : PmmOp} :
      Run C s t → Legal t op → C t op → m.exec fuel t op = .ok u → Run C s u

/-- The state of the manager after `init` and one `init_memmap` of `n` pages from `base`
on, over a memory in the state `s₀`. -/
def Start (s₀ : σ) (base n : Nat) (s : PmmSys σ) : Prop :=
  ∃ (fuel : Nat) (mgr : σ), m.initMemmap fuel (m.init s₀) base n = .ok mgr ∧ s = ⟨mgr, []⟩

/-- An invariant of every step holds after every run. -/
theorem Run.invariant {C : PmmSys σ → PmmOp → Prop} {P : PmmSys σ → Prop} {s t : PmmSys σ}
    (h : m.Run C s t) (hs : P s)
    (hstep : ∀ (t u : PmmSys σ) (fuel : Nat) (op : PmmOp), P t → Legal t op → C t op →
      m.exec fuel t op = .ok u → P u) : P t := by
  induction h with
  | refl => exact hs
  | step _ hl hc he ih => exact hstep _ _ _ _ ih hl hc he

/-- A run goes on. -/
theorem Run.trans {m : PmmManager σ} {C : PmmSys σ → PmmOp → Prop} {s t u : PmmSys σ}
    (h : m.Run C s t) (h' : m.Run C t u) : m.Run C s u := by
  induction h' with
  | refl => exact h
  | step _ hl hc he ih => exact ih.step hl hc he

/-- A list of calls run one after the other. -/
def execAll (fuel : Nat) (s : PmmSys σ) (ops : List PmmOp) : Except Halt (PmmSys σ) :=
  ops.foldlM (fun t op => if Legal t op then m.exec fuel t op else .error .assert) s

/-- A list of calls that all return is a run. -/
theorem run_of_execAll {fuel : Nat} {ops : List PmmOp} {s t : PmmSys σ}
    (h : m.execAll fuel s ops = .ok t) : m.Run Always s t := by
  suffices key : ∀ (ops : List PmmOp) (u : PmmSys σ), m.Run Always s u →
      m.execAll fuel u ops = .ok t → m.Run Always s t from key ops s .refl h
  intro ops
  induction ops with
  | nil =>
      intro u hu h
      cases h
      exact hu
  | cons op ops ih =>
      intro u hu h
      simp only [execAll, List.foldlM_cons] at h
      split at h
      · rename_i hl
        cases he : m.exec fuel u op with
        | error e => rw [he] at h; cases h
        | ok v =>
            rw [he] at h
            exact ih v (.step hu hl trivial he) h
      · cases h

end PmmManager

end Ucore.Mm
