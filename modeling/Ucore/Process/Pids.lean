import Ucore.Process.Proc

/-!
# `Ucore.Process.Pids`: the processes of lab 8

`get_pid`, `set_links`, `remove_links`, `do_exit` and `do_wait` of lab 8 treat the lists, the
parents and the numbers of the processes as those of lab 5 do, and so does a `do_fork` that
succeeds. The scheduler is another one. So here the process that runs next is any runnable one.

A run has the calls of any process in any order. `PidStep` has one constructor for each: a fork that
succeeds, an exit, a wait that returns, a call that goes to sleep, a wake-up, and a `schedule`. What
a call does to the lists is the function of `Ucore.Process.Proc`.
-/

set_option autoImplicit false

namespace Ucore.Process

open Ucore.Schedule

variable {P : Type} [DecidableEq P]

/-- `schedule` and `proc_run`, which go to `next`. -/
def switchTo (s : Procs P) (next : P) : Procs P :=
  { s with
    need_resched := Function.update s.need_resched s.current false
    current := next }

/-- The scheduler can choose the process. -/
def CanRun (s : Procs P) (next : P) : Prop := next ∈ s.allocated ∧ s.state next = .runnable

/-- The current process waits for something. -/
def sleepOn (s : Procs P) (wait_state : BitVec 32) : Procs P :=
  { s with
    state := Function.update s.state s.current .sleeping
    wait_state := Function.update s.wait_state s.current wait_state }

/-- A fork with memory for the child, an exit, a `do_wait` that returns, and what else changes the
states of processes. -/
inductive PidStep (idleproc initproc : P) (s s' : Procs P) : Prop
  | fork (fuel : Nat) (proc : P) (ret : Int) : s.current ≠ idleproc → proc ∉ s.allocated →
      doFork fuel s (some proc) true true = .ok (ret, s') → PidStep idleproc initproc s s'
  | exit (fuel : Nat) (error_code : Int) (s₁ : Procs P) (next : P) :
      exitProc idleproc initproc fuel s error_code = .ok s₁ → CanRun s₁ next →
      s' = switchTo s₁ next → PidStep idleproc initproc s s'
  | wait (fuel : Nat) (pid ret : Int) : s.current ≠ idleproc →
      doWait idleproc initproc fuel s pid = .ok (some ret, s') → PidStep idleproc initproc s s'
  | sleep (wait_state : BitVec 32) (next : P) : s.current ≠ idleproc →
      CanRun (sleepOn s wait_state) next → s' = switchTo (sleepOn s wait_state) next →
      PidStep idleproc initproc s s'
  | wakeup (proc : P) : wakeupProc s proc = .ok s' → PidStep idleproc initproc s s'
  | schedule (next : P) : CanRun s next → s' = switchTo s next → PidStep idleproc initproc s s'

/-- The states behind `proc_init` and any steps after it. -/
inductive PidRun (idleproc initproc : P) : Procs P → Prop
  | init {s : Procs P} (s₀ : Procs P) (fuel : Nat) (pid : Int) : initproc ≠ idleproc →
      doFork fuel (procInit s₀ idleproc) (some initproc) true true = .ok (pid, s) →
      PidRun idleproc initproc s
  | step {s s' : Procs P} : PidRun idleproc initproc s → PidStep idleproc initproc s s' →
      PidRun idleproc initproc s'

end Ucore.Process
