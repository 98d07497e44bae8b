import Ucore.Lib.Halt
import Ucore.Schedule.Proc

/-!
# `Ucore.Sync.Sem`: one semaphore, section by section

`up`, `down` and `try_down` of `sem.c`, with the wait queue of `wait.c`, for any processes. A
section with interrupts disabled is one step. `down` has two: the one up to `schedule()` and the one
behind it, which the process takes when it runs again. A `wait_t` is a local variable of `__down`,
so it is named by its process. The value is an `int`, and the machine lets `sem->value ++` wrap
around.

Which process runs next is left open: any process that is runnable takes the next step.

`SemRun` is any sequence of sections. A section may be taken in a state in which its process is
runnable and stands at its beginning, and a process outside of `down` may be changed by the rest of
the kernel in any way. `SemEvent` is what the run logs. It tells an `up` that adds to the value from
one that wakes a process, and a `down` that takes from the value from one that has to wait.
-/

set_option autoImplicit false

namespace Ucore.Sync

open Ucore.Lib Ucore.Schedule

/-- A semaphore, the processes, and for each whether it is in the middle of `__down`, behind
`wait_current_set`. -/
structure SemState (P : Type) where
  value : BitVec 32
  wait_queue : List P
  wakeup_flags : P → BitVec 32
  proc : P → ProcStruct
  inDown : P → Bool

variable {P : Type} [DecidableEq P]

namespace SemState

/-- `sem_init` -/
def sem_init (value : BitVec 32) (s : SemState P) : SemState P :=
  { s with value := value, wait_queue := [] }

/-- Change a process. -/
def setProc (s : SemState P) (p : P) (proc : ProcStruct) : SemState P :=
  { s with proc := Function.update s.proc p proc }

/-- `wakeup_proc`, without the run queue -/
def wakeup_proc (p : P) (s : SemState P) : Except Halt (SemState P) :=
  if (s.proc p).state = .zombie then .error .assert
  else if (s.proc p).state ≠ .runnable then .ok (s.setProc p (s.proc p).wakeup)
  else .ok s

/-- `wait_queue_add` -/
def wait_queue_add (p : P) (s : SemState P) : Except Halt (SemState P) :=
  if p ∈ s.wait_queue then .error .assert
  else .ok { s with wait_queue := s.wait_queue ++ [p] }

/-- `wait_queue_del` -/
def wait_queue_del (p : P) (s : SemState P) : Except Halt (SemState P) :=
  if p ∈ s.wait_queue then .ok { s with wait_queue := s.wait_queue.erase p }
  else .error .assert

/-- `wakeup_wait`, with `del` set -/
def wakeup_wait (p : P) (wakeup_flags : BitVec 32) (s : SemState P) :
    Except Halt (SemState P) := do
  let s ← s.wait_queue_del p
  wakeup_proc p { s with wakeup_flags := Function.update s.wakeup_flags p wakeup_flags }

/-- `wait_current_set`, with `wait_init` -/
def wait_current_set (p : P) (wait_state : BitVec 32) (s : SemState P) :
    Except Halt (SemState P) :=
  wait_queue_add p
    { s with
      wakeup_flags := Function.update s.wakeup_flags p WT_INTERRUPTED
      proc := Function.update s.proc p
        { s.proc p with state := .sleeping, wait_state := wait_state } }

/-- `wait_current_del` -/
def wait_current_del (p : P) (s : SemState P) : Except Halt (SemState P) :=
  if p ∈ s.wait_queue then s.wait_queue_del p else .ok s

/-- `__up` -/
def up (wait_state : BitVec 32) (s : SemState P) : Except Halt (SemState P) :=
  match s.wait_queue with
  | [] => .ok { s with value := s.value + 1 }
  | wait :: _ =>
      if (s.proc wait).wait_state = wait_state then s.wakeup_wait wait wait_state
      else .error .assert

/-- `__down` up to `schedule()`. The process has its unit, or it waits. -/
def down (p : P) (wait_state : BitVec 32) (s : SemState P) : Except Halt (SemState P) :=
  if 0 < s.value.toInt then .ok { s with value := s.value - 1 }
  else do
    let s ← s.wait_current_set p wait_state
    return { s with inDown := Function.update s.inDown p true }

/-- `__down` behind `schedule()`, and the assertion of `down`. -/
def downEnd (p : P) (wait_state : BitVec 32) (s : SemState P) : Except Halt (SemState P) := do
  let s ← s.wait_current_del p
  if s.wakeup_flags p = wait_state then
    return { s with inDown := Function.update s.inDown p false }
  else if s.wakeup_flags p = 0 then
    return { s with inDown := Function.update s.inDown p false }
  else .error .assert

/-- `try_down`, with the value that it returns. -/
def try_down (s : SemState P) : SemState P × Bool :=
  if 0 < s.value.toInt then ({ s with value := s.value - 1 }, true) else (s, false)

/-- The process has been woken up, and it has not run since. -/
def Woken (s : SemState P) (p : P) : Prop := s.inDown p = true ∧ p ∉ s.wait_queue

end SemState

/-- What has happened at a semaphore. -/
inductive SemEvent (P : Type) where
  /-- An `up` that adds to the value. -/
  | up
  /-- An `up` that adds to the largest `int`. -/
  | wrap
  /-- An `up` that wakes the process. -/
  | wake (p : P)
  /-- A `down` or `try_down` that takes from the value. -/
  | down
  /-- A `down` that has to wait. -/
  | wait (p : P)
  /-- A `down` that ends after it has waited. -/
  | resume (p : P)
  /-- A `try_down` that fails, or anything that a process does elsewhere. -/
  | other

/-- The event of an `up`. -/
def upEvent (s : SemState P) : SemEvent P :=
  match s.wait_queue with
  | [] => if s.value = BitVec.intMax 32 then .wrap else .up
  | p :: _ => .wake p

/-- The event of a `down`. -/
def downEvent (p : P) (s : SemState P) : SemEvent P := if 0 < s.value.toInt then .down else .wait p

/-- Sections of processes that are runnable, one after another, from `sem_init` on. The log
has the last event first. -/
inductive SemRun (value : BitVec 32) : List (SemEvent P) → SemState P → Prop
  | init (s : SemState P) : (∀ p, s.inDown p = false) → SemRun value [] (s.sem_init value)
  | up {log : List (SemEvent P)} {s s' : SemState P} (p : P) : SemRun value log s →
      (s.proc p).state = .runnable → s.inDown p = false → s.up WT_KSEM = .ok s' →
      SemRun value (upEvent s :: log) s'
  | down {log : List (SemEvent P)} {s s' : SemState P} (p : P) : SemRun value log s →
      (s.proc p).state = .runnable → s.inDown p = false → s.down p WT_KSEM = .ok s' →
      SemRun value (downEvent p s :: log) s'
  | try_down {log : List (SemEvent P)} {s : SemState P} (p : P) : SemRun value log s →
      (s.proc p).state = .runnable → s.inDown p = false →
      SemRun value ((if s.try_down.2 = true then .down else .other) :: log) s.try_down.1
  | downEnd {log : List (SemEvent P)} {s s' : SemState P} (p : P) : SemRun value log s →
      (s.proc p).state = .runnable → s.inDown p = true → s.downEnd p WT_KSEM = .ok s' →
      SemRun value (.resume p :: log) s'
  /-- A process that is not in the middle of `down` does something else, or something is done
  to it. -/
  | other {log : List (SemEvent P)} {s : SemState P} (p : P) (proc : ProcStruct) :
      SemRun value log s → s.inDown p = false → SemRun value (.other :: log) (s.setProc p proc)

end Ucore.Sync
