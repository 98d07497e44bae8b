import Ucore.Lib.Halt
import Ucore.Lib.SkewHeap
import Ucore.Schedule.Proc
import Mathlib.Logic.Function.Basic

/-!
# `Ucore.Schedule.Stride`: the stride class of lab 6

`default_sched_stride.c` with `USE_SKEW_HEAP`, and the functions of `sched.c` and `proc.c` that call
it, for any processes. The run pool is the heap that hangs off `rq->lab6_run_pool`.

Beside the field `lab6_stride`, which is modulo `2 ^ 32`, stands the stride that the process would
have if it did not wrap. `newcomers` are the processes that `wakeup_proc` has put into the queue
since the last `schedule`.

`proc_stride_comp_f` compares the difference of two fields as a signed number of 32 bits, as the
source has it. `Sound` is what it should come to: the comparison of the strides that do not wrap.

A run has forks, wake-ups, sleeps, exits, yields, calls of `lab6_set_priority`, ticks and
`schedule`, in any order that the states of the processes allow.
-/

set_option autoImplicit false

namespace Ucore.Schedule

open Ucore.Lib

/-- `BIG_STRIDE`, the largest signed number of 32 bits. -/
def BIG_STRIDE : BitVec 32 := 0x7FFFFFFF#32

/-- The processes with the fields that the class reads and writes, and the run queue; `rq` is
whether `proc->rq` points to it. -/
structure StrideState (P : Type) where
  state : P → ProcState
  need_resched : P → Bool
  time_slice : P → Int
  rq : P → Bool
  lab6_stride : P → BitVec 32
  lab6_priority : P → BitVec 32
  lab6_run_pool : SkewHeap P
  proc_num : Int
  max_time_slice : Int
  current : P
  trueStride : P → Nat
  newcomers : List P

namespace StrideState

variable {P : Type} [DecidableEq P]

/-- `proc_stride_comp_f` -/
def proc_stride_comp_f (s : StrideState P) (p q : P) : Int :=
  let c := (s.lab6_stride p - s.lab6_stride q).toInt
  if 0 < c then 1 else if c = 0 then 0 else -1

/-- `stride_init` -/
def stride_init (s : StrideState P) : StrideState P :=
  { s with lab6_run_pool := .nil, proc_num := 0 }

/-- `stride_enqueue` -/
def stride_enqueue (s : StrideState P) (proc : P) : StrideState P :=
  let s := if s.rq proc = true then
      { s with
        lab6_run_pool := SkewHeap.remove s.proc_stride_comp_f proc s.lab6_run_pool
        proc_num := s.proc_num - 1
        rq := Function.update s.rq proc false }
    else s
  { s with
    lab6_run_pool := SkewHeap.insert s.proc_stride_comp_f s.lab6_run_pool proc
    time_slice :=
      if s.time_slice proc = 0 ∨ s.max_time_slice < s.time_slice proc then
        Function.update s.time_slice proc s.max_time_slice
      else s.time_slice
    rq := Function.update s.rq proc true
    proc_num := s.proc_num + 1 }

/-- `stride_dequeue` -/
def stride_dequeue (s : StrideState P) (proc : P) : StrideState P :=
  if s.rq proc = true then
    { s with
      lab6_run_pool := SkewHeap.remove s.proc_stride_comp_f proc s.lab6_run_pool
      proc_num := s.proc_num - 1
      rq := Function.update s.rq proc false }
  else s

/-- What `stride_pick_next` adds to the stride. -/
def pass (s : StrideState P) (p : P) : BitVec 32 :=
  if s.lab6_priority p = 0 then BIG_STRIDE else BIG_STRIDE / s.lab6_priority p

/-- `stride_pick_next` -/
def stride_pick_next (s : StrideState P) : Option P × StrideState P :=
  match s.lab6_run_pool.root with
  | none => (none, s)
  | some p =>
      (some p, { s with
        lab6_stride := Function.update s.lab6_stride p (s.lab6_stride p + s.pass p)
        trueStride := Function.update s.trueStride p (s.trueStride p + (s.pass p).toNat) })

/-- `stride_proc_tick` -/
def stride_proc_tick (s : StrideState P) (proc : P) : StrideState P :=
  let s := if 0 < s.time_slice proc then
      { s with time_slice := Function.update s.time_slice proc (s.time_slice proc - 1) }
    else s
  if s.time_slice proc = 0 then
    { s with need_resched := Function.update s.need_resched proc true }
  else s

/-- The fields that `alloc_proc` sets. -/
def alloc_proc (s : StrideState P) (proc : P) : StrideState P :=
  { s with
    state := Function.update s.state proc .uninit
    need_resched := Function.update s.need_resched proc false
    rq := Function.update s.rq proc false
    time_slice := Function.update s.time_slice proc 0
    lab6_stride := Function.update s.lab6_stride proc 0
    trueStride := Function.update s.trueStride proc 0
    lab6_priority := Function.update s.lab6_priority proc 1 }

section
variable (idleproc : P)

/-- `sched_class_enqueue` -/
def sched_class_enqueue (s : StrideState P) (proc : P) : StrideState P :=
  if proc ≠ idleproc then s.stride_enqueue proc else s

/-- `sched_class_proc_tick` -/
def sched_class_proc_tick (s : StrideState P) (proc : P) : StrideState P :=
  if proc ≠ idleproc then s.stride_proc_tick proc
  else { s with need_resched := Function.update s.need_resched proc true }

/-- `wakeup_proc` -/
def wakeup_proc (s : StrideState P) (proc : P) : Except Halt (StrideState P) :=
  if s.state proc = .zombie then .error .assert
  else if s.state proc ≠ .runnable then
    let s : StrideState P := { s with state := Function.update s.state proc .runnable }
    if proc ≠ s.current then
      .ok { s.sched_class_enqueue idleproc proc with newcomers := proc :: s.newcomers }
    else .ok s
  else .ok s

/-- `schedule` up to `sched_class_pick_next` -/
def putBack (s : StrideState P) : StrideState P :=
  let s : StrideState P :=
    { s with need_resched := Function.update s.need_resched s.current false, newcomers := [] }
  if s.state s.current = .runnable then s.sched_class_enqueue idleproc s.current else s

/-- `schedule` from `sched_class_pick_next` on -/
def pickNext (s : StrideState P) : StrideState P :=
  match s.stride_pick_next with
  | (some next, s) => { s.stride_dequeue next with current := next }
  | (none, s) => { s with current := idleproc }

/-- `schedule` -/
def schedule (s : StrideState P) : StrideState P := (s.putBack idleproc).pickNext idleproc

/-- `lab6_set_priority` -/
def lab6_set_priority (s : StrideState P) (priority : BitVec 32) : StrideState P :=
  { s with lab6_priority :=
      Function.update s.lab6_priority s.current (if priority = 0 then 1 else priority) }

/-- `sched_init` and `proc_init` up to the call of `kernel_thread`: no struct but that of
`idleproc` is in use. -/
def boot (s : StrideState P) (max_time_slice : Int) : StrideState P :=
  let s := alloc_proc (stride_init { s with max_time_slice := max_time_slice }) idleproc
  { s with
    state := fun p => if p = idleproc then .runnable else .uninit
    rq := fun _ => false
    lab6_stride := fun _ => 0
    trueStride := fun _ => 0
    need_resched := Function.update s.need_resched idleproc true
    current := idleproc
    newcomers := [] }

end

end StrideState

/-- What the current process does, and the timer tick. -/
inductive StrideOp (P : Type) where
  | fork (proc : P)
  | wake (proc : P)
  | sleep
  | exit
  | yield
  | schedule
  | setPriority (priority : BitVec 32)
  | tick

namespace StrideOp

variable {P : Type} [DecidableEq P] (idleproc : P)

open StrideState

/-- The idle process only calls `schedule`. A process that is forked is not in use, and one that
is woken up sleeps. -/
def Enabled (s : StrideState P) : StrideOp P → Prop
  | fork proc => s.current ≠ idleproc ∧ (s.state proc = .uninit ∨ s.state proc = .zombie)
  | wake proc => s.state proc = .sleeping
  | schedule => True
  | tick => True
  | _ => s.current ≠ idleproc

instance (s : StrideState P) (op : StrideOp P) : Decidable (op.Enabled idleproc s) :=
  match op with
  | fork proc =>
      inferInstanceAs
        (Decidable (s.current ≠ idleproc ∧ (s.state proc = .uninit ∨ s.state proc = .zombie)))
  | wake proc => inferInstanceAs (Decidable (s.state proc = .sleeping))
  | schedule | tick => isTrue trivial
  | sleep | exit | yield | setPriority _ => inferInstanceAs (Decidable (s.current ≠ idleproc))

/-- The state behind an operation. -/
def run (s : StrideState P) : StrideOp P → Except Halt (StrideState P)
  | fork proc => (s.alloc_proc proc).wakeup_proc idleproc proc
  | wake proc => s.wakeup_proc idleproc proc
  | sleep => .ok ({ s with state := Function.update s.state s.current .sleeping }.schedule idleproc)
  | exit => .ok ({ s with state := Function.update s.state s.current .zombie }.schedule idleproc)
  | yield => .ok { s with need_resched := Function.update s.need_resched s.current true }
  | schedule => .ok (s.schedule idleproc)
  | setPriority priority => .ok (s.lab6_set_priority priority)
  | tick => .ok (s.sched_class_proc_tick idleproc s.current)

end StrideOp

/-- The states behind `proc_init`, which forks `initproc`, and any steps after it that meet a
condition. -/
inductive StrideRun {P : Type} [DecidableEq P] (idleproc : P)
    (cond : StrideState P → StrideOp P → Prop) : StrideState P → Prop
  | init {s : StrideState P} (s₀ : StrideState P) (max_time_slice : Int) (initproc : P) :
      initproc ≠ idleproc →
      ((s₀.boot idleproc max_time_slice).alloc_proc initproc).wakeup_proc idleproc initproc =
        .ok s → StrideRun idleproc cond s
  | step {s s' : StrideState P} (op : StrideOp P) : StrideRun idleproc cond s →
      op.Enabled idleproc s → cond s op → op.run idleproc s = .ok s' →
      StrideRun idleproc cond s'

end Ucore.Schedule
