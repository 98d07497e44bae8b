import Ucore.Lib.Halt
import Ucore.Libs.List

/-!
# `Ucore.Schedule.RunQueue`: the round-robin class of lab 8

`default_sched.c`, function by function. The node of `rq->run_list` is `none` and the node
`run_link` of a process is `some proc`. The run queue comes with the fields of the processes that
belong to it.

`RR_enqueue` puts a process behind all others and gives it a new time slice when the old one is used
up or too large, `RR_dequeue` takes it out, `RR_pick_next` returns the first one and `RR_proc_tick`
counts the slice down. The assertions of the first two are about `run_link`, whether it is on a
list.

`queued` and `dispatched` record what has been put in and taken out, in order. Nothing reads them.
-/

set_option autoImplicit false

namespace Ucore.Schedule

open Ucore.Lib Ucore.Libs

/-- Why a call does not return: an assertion of `RR_enqueue`, of `RR_dequeue` or of
`wakeup_proc`, or something else. -/
inductive Stop where
  | enqueue
  | dequeue
  | wakeup
  | other (why : Halt)
  deriving DecidableEq

/-- A call of a function that has none of these assertions. -/
def lift {α : Type} (x : Except Halt α) : Except Stop α := x.mapError .other

/-- `MAX_TIME_SLICE` -/
def MAX_TIME_SLICE : Int := 5

/-- `struct run_queue`, and the fields `run_link`, `time_slice` and `rq` of the processes; `rq` is
whether it points to the run queue. `queued` and `dispatched` are the processes that have been put
into the queue and taken out of it so far, in order. -/
structure RunQueue (P : Type) where
  run_list : Links (Option P)
  proc_num : Int
  max_time_slice : Int
  time_slice : P → Int
  rq : P → Bool
  queued : List P
  dispatched : List P

variable {P : Type} [DecidableEq P]

/-- `RR_init`, behind the assignment of `sched_init` -/
def rrInit (rq : RunQueue P) : RunQueue P :=
  { rq with
    max_time_slice := MAX_TIME_SLICE
    run_list := listInit rq.run_list none
    proc_num := 0
    queued := []
    dispatched := [] }

/-- What `alloc_proc` puts into the fields of a process. -/
def rrAlloc (rq : RunQueue P) (proc : P) : RunQueue P :=
  { rq with
    rq := Function.update rq.rq proc false
    run_list := listInit rq.run_list (some proc)
    time_slice := Function.update rq.time_slice proc 0 }

/-- `RR_enqueue` -/
def rrEnqueue (rq : RunQueue P) (proc : P) : Except Stop (RunQueue P) :=
  if ¬ listEmpty rq.run_list (some proc) then .error .enqueue
  else .ok { rq with
    run_list := listAddBefore rq.run_list none (some proc)
    time_slice :=
      -- A slice that is not used up is kept.
      if rq.time_slice proc = 0 ∨ rq.max_time_slice < rq.time_slice proc then
        Function.update rq.time_slice proc rq.max_time_slice
      else rq.time_slice
    rq := Function.update rq.rq proc true
    proc_num := rq.proc_num + 1
    queued := rq.queued ++ [proc] }

/-- `RR_dequeue` -/
def rrDequeue (rq : RunQueue P) (proc : P) : Except Stop (RunQueue P) :=
  if ¬ (listEmpty rq.run_list (some proc) = false ∧ rq.rq proc = true) then .error .dequeue
  else .ok { rq with
    run_list := listDelInit rq.run_list (some proc)
    proc_num := rq.proc_num - 1
    dispatched := rq.dispatched ++ [proc] }

/-- `RR_pick_next` -/
def rrPickNext (rq : RunQueue P) : Option P := rq.run_list.next none

/-- `RR_proc_tick`, with whether it sets `need_resched` -/
def rrProcTick (rq : RunQueue P) (proc : P) : RunQueue P × Bool :=
  let rq :=
    if 0 < rq.time_slice proc then
      { rq with time_slice := Function.update rq.time_slice proc (rq.time_slice proc - 1) }
    else rq
  (rq, decide (rq.time_slice proc = 0))

end Ucore.Schedule
