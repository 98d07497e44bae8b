import Ucore.Lib.Halt
import Ucore.Lib.SkewHeap
import Ucore.Schedule.Proc
import Mathlib.Logic.Function.Basic

/-!
# `Ucore.Schedule.Stride8`: the stride class of lab 8

`default_sched_stride.c` of lab 8, and the functions of `sched.c` and `proc.c` that call it. Other
than in lab 6, `alloc_proc` sets the priority to zero, `stride_pick_next` divides without a look at
it, and `stride_dequeue` asserts that the process is in the queue and leaves `proc->rq` as it is.

`picks` is the history of `stride_pick_next`, and `called` says which processes have called
`lab6_set_priority` since they were created.

A division by zero does not trap on this machine: the quotient has all bits set (`quotient`). So the
model goes on behind it, and `GoodPick` is a statement about what a pick has done.

The operations of a run are those of lab 6, with `lab6_set_priority` of the current process.
-/

set_option autoImplicit false

namespace Ucore.Schedule

open Ucore.Lib

/-- One pick: the process, the divisor, and what is added to the stride. -/
structure Pick (P : Type) where
  proc : P
  divisor : BitVec 32
  added : BitVec 32
  called : Bool

/-- The processes with the fields that the class reads and writes, and the run queue; `rq` is
whether `proc->rq` points to it. -/
structure Stride8 (P : Type) where
  state : P → ProcState
  need_resched : P → Bool
  time_slice : P → Int
  rq : P → Bool
  lab6_stride : P → BitVec 32
  lab6_priority : P → BitVec 32
  lab6_run_pool : SkewHeap P
  proc_num : Nat
  max_time_slice : Int
  current : P
  called : P → Bool
  picks : List (Pick P)

namespace Stride8

variable {P : Type} [DecidableEq P]

/-- `BIG_STRIDE` -/
def BIG_STRIDE : BitVec 32 := 1#32 <<< 30

/-- `proc_stride_comp_f` -/
def proc_stride_comp_f (s : Stride8 P) (p q : P) : Int :=
  let c := (s.lab6_stride p - s.lab6_stride q).toInt
  if 0 < c then 1 else if c = 0 then 0 else -1

/-- `stride_init` -/
def stride_init (s : Stride8 P) : Stride8 P := { s with lab6_run_pool := .nil, proc_num := 0 }

/-- `stride_enqueue` -/
def stride_enqueue (s : Stride8 P) (proc : P) : Stride8 P :=
  { s with
    lab6_run_pool := SkewHeap.insert s.proc_stride_comp_f s.lab6_run_pool proc
    time_slice :=
      if s.time_slice proc = 0 ∨ s.max_time_slice < s.time_slice proc then
        Function.update s.time_slice proc s.max_time_slice
      else s.time_slice
    rq := Function.update s.rq proc true
    proc_num := s.proc_num + 1 }

/-- `stride_dequeue` -/
def stride_dequeue (s : Stride8 P) (proc : P) : Except Halt (Stride8 P) :=
  if s.rq proc = true ∧ 0 < s.proc_num then
    .ok { s with
      lab6_run_pool := SkewHeap.remove s.proc_stride_comp_f proc s.lab6_run_pool
      proc_num := s.proc_num - 1 }
  else .error .assert

/-- What `stride_pick_next` adds to the stride: the quotient as `divuw` gives it, which has all
bits set when the divisor is zero. -/
def quotient (divisor : BitVec 32) : BitVec 32 := BIG_STRIDE.smtUDiv divisor

/-- `stride_pick_next` -/
def stride_pick_next (s : Stride8 P) : Option P × Stride8 P :=
  match s.lab6_run_pool.root with
  | none => (none, s)
  | some p =>
      let added := quotient (s.lab6_priority p)
      (some p, { s with
        lab6_stride := Function.update s.lab6_stride p (s.lab6_stride p + added)
        picks := ⟨p, s.lab6_priority p, added, s.called p⟩ :: s.picks })

/-- `stride_proc_tick` -/
def stride_proc_tick (s : Stride8 P) (proc : P) : Stride8 P :=
  let s := if 0 < s.time_slice proc then
      { s with time_slice := Function.update s.time_slice proc (s.time_slice proc - 1) }
    else s
  if s.time_slice proc = 0 then
    { s with need_resched := Function.update s.need_resched proc true }
  else s

/-- The fields that `alloc_proc` sets. -/
def alloc_proc (s : Stride8 P) (proc : P) : Stride8 P :=
  { s with
    state := Function.update s.state proc .uninit
    need_resched := Function.update s.need_resched proc false
    rq := Function.update s.rq proc false
    time_slice := Function.update s.time_slice proc 0
    lab6_stride := Function.update s.lab6_stride proc 0
    lab6_priority := Function.update s.lab6_priority proc 0
    called := Function.update s.called proc false }

section
variable (idleproc : P)

/-- `sched_class_enqueue` -/
def sched_class_enqueue (s : Stride8 P) (proc : P) : Stride8 P :=
  if proc ≠ idleproc then s.stride_enqueue proc else s

/-- `sched_class_proc_tick` -/
def sched_class_proc_tick (s : Stride8 P) (proc : P) : Stride8 P :=
  if proc ≠ idleproc then s.stride_proc_tick proc
  else { s with need_resched := Function.update s.need_resched proc true }

/-- `wakeup_proc` -/
def wakeup_proc (s : Stride8 P) (proc : P) : Except Halt (Stride8 P) :=
  if s.state proc = .zombie then .error .assert
  else if s.state proc ≠ .runnable then
    let s : Stride8 P := { s with state := Function.update s.state proc .runnable }
    if proc ≠ s.current then .ok (s.sched_class_enqueue idleproc proc) else .ok s
  else .ok s

/-- `schedule` up to `sched_class_pick_next` -/
def putBack (s : Stride8 P) : Stride8 P :=
  let s : Stride8 P := { s with need_resched := Function.update s.need_resched s.current false }
  if s.state s.current = .runnable then s.sched_class_enqueue idleproc s.current else s

/-- `schedule` from `sched_class_pick_next` on -/
def pickNext (s : Stride8 P) : Except Halt (Stride8 P) :=
  match s.stride_pick_next with
  | (some next, s) => do
      let s ← s.stride_dequeue next
      return { s with current := next }
  | (none, s) => .ok { s with current := idleproc }

/-- `schedule` -/
def schedule (s : Stride8 P) : Except Halt (Stride8 P) := (s.putBack idleproc).pickNext idleproc

/-- `lab6_set_priority` -/
def lab6_set_priority (s : Stride8 P) (priority : BitVec 32) : Stride8 P :=
  { s with
    lab6_priority :=
      Function.update s.lab6_priority s.current (if priority = 0 then 1 else priority)
    called := Function.update s.called s.current true }

/-- `sched_init`, with this class in use, and `proc_init` up to the call of `kernel_thread`: no
struct but that of `idleproc` is in use. -/
def boot (s : Stride8 P) (max_time_slice : Int) : Stride8 P :=
  let s := alloc_proc (stride_init { s with max_time_slice := max_time_slice }) idleproc
  { s with
    state := fun p => if p = idleproc then .runnable else .uninit
    rq := fun _ => false
    lab6_priority := fun _ => 0
    need_resched := Function.update s.need_resched idleproc true
    current := idleproc
    called := fun _ => false
    picks := [] }

end

end Stride8

/-- What the current process does, and the timer tick. -/
inductive Stride8Op (P : Type) where
  | fork (proc : P)
  | wake (proc : P)
  | sleep
  | exit
  | yield
  | schedule
  | setPriority (priority : BitVec 32)
  | tick

namespace Stride8Op

variable {P : Type} [DecidableEq P] (idleproc : P)

/-- The idle process only calls `schedule`. A process that is forked is not in use, and one that
is woken up sleeps. -/
def Enabled (s : Stride8 P) : Stride8Op P → Prop
  | fork proc => s.current ≠ idleproc ∧ (s.state proc = .uninit ∨ s.state proc = .zombie)
  | wake proc => s.state proc = .sleeping
  | schedule => True
  | tick => True
  | _ => s.current ≠ idleproc

/-- The state behind an operation. The assertions of `wakeup_proc` and `stride_dequeue` leave none. -/
def run (s : Stride8 P) : Stride8Op P → Except Halt (Stride8 P)
  | fork proc => (s.alloc_proc proc).wakeup_proc idleproc proc
  | wake proc => s.wakeup_proc idleproc proc
  | sleep => { s with state := Function.update s.state s.current .sleeping }.schedule idleproc
  | exit => { s with state := Function.update s.state s.current .zombie }.schedule idleproc
  | yield => .ok { s with need_resched := Function.update s.need_resched s.current true }
  | schedule => s.schedule idleproc
  | setPriority priority => .ok (s.lab6_set_priority priority)
  | tick => .ok (s.sched_class_proc_tick idleproc s.current)

end Stride8Op

/-- The states behind `proc_init`, which forks `initproc`, and any steps after it. -/
inductive Stride8Run {P : Type} [DecidableEq P] (idleproc : P) : Stride8 P → Prop
  | init {s : Stride8 P} (s₀ : Stride8 P) (max_time_slice : Int) (initproc : P) :
      initproc ≠ idleproc →
      ((s₀.boot idleproc max_time_slice).alloc_proc initproc).wakeup_proc idleproc initproc =
        .ok s → Stride8Run idleproc s
  | step {s s' : Stride8 P} (op : Stride8Op P) : Stride8Run idleproc s →
      op.Enabled idleproc s → op.run idleproc s = .ok s' → Stride8Run idleproc s'

end Ucore.Schedule
