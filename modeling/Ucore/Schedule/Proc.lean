import Mathlib.Logic.Function.Basic

/-!
# `Ucore.Schedule.Proc`: the scheduling part of `struct proc_struct`

The fields of `proc.h` that the scheduler, the timers and the semaphores read and write.

The values of `wait_state` are those of `proc.h`, of which `WT_INTERRUPTED` is a bit of its own: a
process with it is woken up when it is killed. `ProcStruct.wakeup` is `wakeup_proc` on the fields of
the process alone.
-/

set_option autoImplicit false

namespace Ucore.Schedule

/-- `enum proc_state` -/
inductive ProcState where
  | uninit
  | sleeping
  | runnable
  | zombie
  deriving DecidableEq, Repr

/-- `WT_INTERRUPTED` -/
def WT_INTERRUPTED : BitVec 32 := 0x80000000#32

/-- `WT_CHILD` -/
def WT_CHILD : BitVec 32 := 0x00000001#32 ||| WT_INTERRUPTED

/-- `WT_KSEM` -/
def WT_KSEM : BitVec 32 := 0x00000100#32

/-- `WT_TIMER` -/
def WT_TIMER : BitVec 32 := 0x00000002#32 ||| WT_INTERRUPTED

/-- The fields of a `struct proc_struct` that have to do with scheduling. `exiting` is the
flag `PF_EXITING`. -/
structure ProcStruct where
  state : ProcState
  wait_state : BitVec 32
  need_resched : Bool
  time_slice : Int
  exiting : Bool
  deriving DecidableEq

/-- What `wakeup_proc` does to a process that is not runnable. -/
def ProcStruct.wakeup (proc : ProcStruct) : ProcStruct :=
  { proc with state := .runnable, wait_state := 0 }

end Ucore.Schedule
