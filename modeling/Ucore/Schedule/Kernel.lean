import Ucore.Process.Proc
import Ucore.Schedule.RunQueue
import Ucore.Schedule.Timer

/-!
# `Ucore.Schedule.Kernel`: the calls of lab 8 that have to do with scheduling

`wakeup_proc`, `schedule` and the timer tick of `sched.c`, the calls of `proc.c`, and semaphores,
over one state. The processes, their lists and `get_pid` are those of `Ucore.Process.Proc`, which
lab 8 has unchanged, and the timer list is that of `Ucore.Schedule.Timer`; the timer of a process in
`do_sleep` is named by the process.

A call that sleeps is cut at its `schedule()`. Where a process stands is its `Pc`, so that a timer
tick can come in front of the `schedule()` and other processes run behind it.

`Op` lists the calls, the tick, and the wake-up of a process by a driver. Each of them is one
function of this module, written over the state as the source has it up to the next `schedule()`;
`resume` is what the process does behind it. A run takes an operation of the current process, or a
tick or a wake-up at any time.

Each of the assertions of the scheduler stops a call with a constructor of `Stop` of its own.
Whatever else stops it, a walk that runs out of fuel among them, is told apart from these
(`Stop.other`).
-/

set_option autoImplicit false

namespace Ucore.Schedule

open Ucore.Lib Ucore.Libs Ucore.Process

/-- The calls that sleep. -/
inductive Blocking (S : Type) where
  | wait (pid : Int)
  | sleep
  | down (sem : S)
  deriving DecidableEq

/-- Where a process stands: outside of the calls that sleep, in `do_exit` in front of its
`schedule()`, or in front of the `schedule()` of a call or behind it. -/
inductive Pc (S : Type) where
  | run
  | leaving
  | blocked (call : Blocking S)
  | resumed (call : Blocking S)
  deriving DecidableEq

/-- The processes, the run queue, the timers and the semaphores, whose values are of type `int`. -/
structure Kernel (P S : Type) where
  procs : Procs P
  rq : RunQueue P
  timers : List (Timer P P)
  value : S → BitVec 32
  wait_queue : S → List P
  wakeup_flags : P → BitVec 32
  pc : P → Pc S

variable {P S : Type} [DecidableEq P] [DecidableEq S]

section
variable (idleproc initproc : P)

/-- `sched_class_enqueue` -/
def schedClassEnqueue (k : Kernel P S) (proc : P) : Except Stop (Kernel P S) :=
  if proc ≠ idleproc then do
    let rq ← rrEnqueue k.rq proc
    return { k with rq := rq }
  else .ok k

/-- `sched_class_proc_tick` -/
def schedClassProcTick (k : Kernel P S) (proc : P) : Kernel P S :=
  if proc ≠ idleproc then
    let (rq, resched) := rrProcTick k.rq proc
    let procs := if resched then
        { k.procs with need_resched := Function.update k.procs.need_resched proc true }
      else k.procs
    { k with rq := rq, procs := procs }
  else
    { k with procs :=
      { k.procs with need_resched := Function.update k.procs.need_resched proc true } }

/-- `wakeup_proc` -/
def wakeup (k : Kernel P S) (proc : P) : Except Stop (Kernel P S) :=
  if k.procs.state proc = .zombie then .error .wakeup
  else if k.procs.state proc ≠ .runnable then
    let k := { k with procs := { k.procs with
      state := Function.update k.procs.state proc .runnable
      wait_state := Function.update k.procs.wait_state proc 0 } }
    -- The current process is put into the queue by its own `schedule`.
    if proc ≠ k.procs.current then schedClassEnqueue idleproc k proc else .ok k
  else .ok k

/-- `proc_run` of the process that `schedule` has picked. The one that is left stands behind its
`schedule()`. -/
def procRun (k : Kernel P S) (next : P) : Kernel P S :=
  { k with
    procs := { k.procs with current := next }
    pc := match k.pc k.procs.current with
      | .blocked call => Function.update k.pc k.procs.current (.resumed call)
      | _ => k.pc }

/-- The end of `schedule`, behind `sched_class_enqueue`. -/
def pickNext (k : Kernel P S) : Except Stop (Kernel P S) :=
  match rrPickNext k.rq with
  | some next => do
      let rq ← rrDequeue k.rq next
      return procRun { k with rq := rq } next
  | none => .ok (procRun k idleproc)

/-- `schedule` -/
def reschedule (k : Kernel P S) : Except Stop (Kernel P S) :=
  let k : Kernel P S := { k with procs :=
    { k.procs with need_resched := Function.update k.procs.need_resched k.procs.current false } }
  if k.procs.state k.procs.current = .runnable then do
    let k ← schedClassEnqueue idleproc k k.procs.current
    pickNext idleproc k
  else pickNext idleproc k

/-- `do_fork`: `alloc` is the answer of `kmalloc`, and `kstack`, `mm` and `files` tell whether
`setup_kstack`, `copy_mm` and `copy_files` have found memory. -/
def fork (fuel : Nat) (k : Kernel P S) (alloc : Option P) (kstack mm files : Bool) :
    Except Stop (Int × Kernel P S) :=
  if MAX_PROCESS ≤ k.procs.nr_process then .ok (-E_NO_FREE_PROC, k)
  else
    match alloc with
    | none => .ok (-E_NO_MEM, k)
    | some proc =>
        let procs := allocProc k.procs proc
        let k : Kernel P S := { k with
          procs := { procs with parent := Function.update procs.parent proc (some procs.current) }
          rq := rrAlloc k.rq proc
          pc := Function.update k.pc proc .run }
        if k.procs.wait_state k.procs.current ≠ 0 then .error (.other .assert)
        else if ¬ (kstack ∧ mm) then .ok (-E_NO_MEM, { k with procs := freeProc k.procs proc })
        else do
          let (pid, procs) ← lift (getPid fuel k.procs)
          let procs := { procs with pid := Function.update procs.pid proc pid }
          let procs ← lift (setLinks (hashProc procs proc) proc)
          -- `copy_files` comes behind this one: when it fails, the `struct` that is freed is on the
          -- list, in the table and in the run queue.
          let k ← wakeup idleproc { k with procs := procs } proc
          if files then return (pid, k) else return (pid, { k with procs := freeProc k.procs proc })

/-- The loop of `do_exit` that hands the children to `initproc`. -/
def handOver : Nat → Kernel P S → Except Stop (Kernel P S)
  | 0, _ => .error (.other .fuel)
  | fuel + 1, k =>
      match k.procs.cptr k.procs.current with
      | none => .ok k
      | some proc => do
          let s := k.procs
          let s := { s with cptr := Function.update s.cptr s.current (s.optr proc) }
          let optr := s.cptr initproc
          let s := { s with
            yptr := setField (Function.update s.yptr proc none) optr (some proc)
            optr := Function.update s.optr proc optr
            parent := Function.update s.parent proc (some initproc)
            cptr := Function.update s.cptr initproc (some proc) }
          let k := { k with procs := s }
          if s.state proc = .zombie ∧ s.wait_state initproc = WT_CHILD then
            let k ← wakeup idleproc k initproc
            handOver fuel k
          else handOver fuel k

/-- `do_exit` in front of its `schedule` -/
def exit (fuel : Nat) (k : Kernel P S) (error_code : Int) : Except Stop (Kernel P S) :=
  if k.procs.current = idleproc then .error (.other .assert)
  else if k.procs.current = initproc then .error (.other .assert)
  else
    let k := { k with
      procs := { k.procs with
        state := Function.update k.procs.state k.procs.current .zombie
        exit_code := Function.update k.procs.exit_code k.procs.current error_code }
      pc := Function.update k.pc k.procs.current .leaving }
    match k.procs.parent k.procs.current with
    | none => .error (.other .assert)
    | some proc =>
        if k.procs.wait_state proc = WT_CHILD then do
          let k ← wakeup idleproc k proc
          handOver idleproc initproc fuel k
        else handOver idleproc initproc fuel k

/-- The current process goes to sleep. -/
def setSleeping (k : Kernel P S) (wait_state : BitVec 32) (call : Blocking S) : Kernel P S :=
  { k with
    procs := { k.procs with
      state := Function.update k.procs.state k.procs.current .sleeping
      wait_state := Function.update k.procs.wait_state k.procs.current wait_state }
    pc := Function.update k.pc k.procs.current (.blocked call) }

/-- The current process leaves a call that sleeps. -/
def returned (k : Kernel P S) : Kernel P S :=
  { k with pc := Function.update k.pc k.procs.current .run }

/-- `do_wait` from the label `repeat` on, up to its return or its `schedule` -/
def wait (fuel : Nat) (k : Kernel P S) (pid : Int) : Except Stop (Int × Kernel P S) := do
  match ← lift (waitSearch fuel k.procs pid) with
  | (some proc, _) =>
      if proc = idleproc ∨ proc = initproc then .error (.other .assert)
      else
        let procs ← lift (removeLinks (unhashProc k.procs proc) proc)
        return (0, returned { k with procs := freeProc procs proc })
  | (none, true) => return (0, setSleeping k WT_CHILD (.wait pid))
  | (none, false) => return (-E_BAD_PROC, returned k)

/-- `do_kill` -/
def kill (fuel : Nat) (k : Kernel P S) (pid : Int) : Except Stop (Int × Kernel P S) := do
  match ← lift (findProc fuel k.procs pid) with
  | none => return (-E_INVAL, k)
  | some proc =>
      if k.procs.exiting proc then return (-E_KILLED, k)
      else
        let k := { k with procs :=
          { k.procs with exiting := Function.update k.procs.exiting proc true } }
        -- Of `WT_CHILD`, `WT_TIMER`, `WT_KBD` and `WT_KSEM`, only the last has not the bit of
        -- `WT_INTERRUPTED`.
        if k.procs.wait_state proc &&& WT_INTERRUPTED ≠ 0 then
          let k ← wakeup idleproc k proc
          return (0, k)
        else return (0, k)

/-- `do_sleep` up to its return or its `schedule` -/
def sleep (k : Kernel P S) (time : Fin (2 ^ 32)) : Except Stop (Kernel P S) :=
  if time.val = 0 then .ok k
  else do
    let k := setSleeping k WT_TIMER .sleep
    let timers ← lift (add_timer ⟨k.procs.current, time.val, k.procs.current⟩ k.timers)
    return { k with timers := timers }

/-- `up` -/
def semUp (k : Kernel P S) (sem : S) : Except Stop (Kernel P S) :=
  match k.wait_queue sem with
  | [] => .ok { k with value := Function.update k.value sem (k.value sem + 1) }
  | proc :: rest =>
      if k.procs.wait_state proc ≠ WT_KSEM then .error (.other .assert)
      else
        wakeup idleproc { k with
          wait_queue := Function.update k.wait_queue sem rest
          wakeup_flags := Function.update k.wakeup_flags proc WT_KSEM } proc

/-- `down` up to its return or its `schedule`. The `wait_t` is new, so it is on no queue. -/
def semDown (k : Kernel P S) (sem : S) : Kernel P S :=
  if 0 < (k.value sem).toInt then { k with value := Function.update k.value sem (k.value sem - 1) }
  else
    let k := setSleeping k WT_KSEM (.down sem)
    { k with
      wakeup_flags := Function.update k.wakeup_flags k.procs.current WT_INTERRUPTED
      wait_queue := Function.update k.wait_queue sem (k.wait_queue sem ++ [k.procs.current]) }

/-- `down` behind its `schedule` -/
def semDownEnd (k : Kernel P S) (sem : S) : Except Stop (Kernel P S) :=
  let k : Kernel P S := { k with
    wait_queue :=
      Function.update k.wait_queue sem ((k.wait_queue sem).erase k.procs.current) }
  if k.wakeup_flags k.procs.current = WT_KSEM ∨ k.wakeup_flags k.procs.current = 0 then
    .ok (returned k)
  else .error (.other .assert)

/-- `try_down` -/
def semTryDown (k : Kernel P S) (sem : S) : Int × Kernel P S :=
  if 0 < (k.value sem).toInt then (1, { k with value := Function.update k.value sem (k.value sem - 1) })
  else (0, k)

/-- The loop of `run_timer_list` over the timers that have expired. -/
def wakeExpired : List (Timer P P) → Kernel P S → Except Stop (Kernel P S)
  | [], k => .ok k
  | timer :: rest, k =>
      if k.procs.wait_state timer.proc ≠ 0 ∧
          k.procs.wait_state timer.proc &&& WT_INTERRUPTED = 0 then .error (.other .assert)
      else do
        let k ← wakeup idleproc k timer.proc
        wakeExpired rest k

/-- `run_timer_list` -/
def tick (k : Kernel P S) : Except Stop (Kernel P S) := do
  let (timers, expired) ← lift (run_timer_list k.timers)
  let k ← wakeExpired idleproc expired { k with timers := timers }
  return schedClassProcTick idleproc k k.procs.current

/-- The current process goes on behind its `schedule()`. -/
def resume (fuel : Nat) (k : Kernel P S) : Except Stop (Int × Kernel P S) :=
  match k.pc k.procs.current with
  | .resumed (.wait pid) =>
      if k.procs.exiting k.procs.current then do
        let k ← exit idleproc initproc fuel k (-E_KILLED)
        return (0, k)
      else wait idleproc initproc fuel k pid
  | .resumed .sleep => .ok (0, returned { k with timers := del_timer k.procs.current k.timers })
  | .resumed (.down sem) => do
      let k ← semDownEnd k sem
      return (0, k)
  | _ => .ok (0, k)

/-- What the current process can do, and the interrupts: the timer, and a device whose driver calls
`wakeup_proc`. -/
inductive Op (P S : Type) where
  | fork (fuel : Nat) (alloc : Option P) (kstack mm files : Bool)
  | exit (fuel : Nat) (error_code : Int)
  | wait (fuel : Nat) (pid : Int)
  | kill (fuel : Nat) (pid : Int)
  | sleep (time : Fin (2 ^ 32))
  | up (sem : S)
  | down (sem : S)
  | tryDown (sem : S)
  | yield
  | schedule
  | resume (fuel : Nat)
  | tick
  | wakeup (proc : P)

/-- When it can: the idle process only calls `schedule`. A struct that `kmalloc` gives is not in
use. `wakeup_proc` is called for a process that has not exited. -/
def Op.Enabled (k : Kernel P S) : Op P S → Prop
  | .tick => True
  | .wakeup proc => proc ∈ k.procs.allocated ∧ k.procs.state proc ≠ .zombie
  | .schedule => ∀ call, k.pc k.procs.current ≠ .resumed call
  | .resume _ => ∃ call, k.pc k.procs.current = .resumed call
  | .fork _ alloc _ _ _ => k.pc k.procs.current = .run ∧ k.procs.current ≠ idleproc ∧
      ∀ proc, alloc = some proc → proc ∉ k.procs.allocated
  | _ => k.pc k.procs.current = .run ∧ k.procs.current ≠ idleproc

/-- The call with its return value, where it has one. -/
def Op.run (k : Kernel P S) : Op P S → Except Stop (Int × Kernel P S)
  | .fork fuel alloc kstack mm files => Schedule.fork idleproc fuel k alloc kstack mm files
  | .exit fuel error_code => (Schedule.exit idleproc initproc fuel k error_code).map (0, ·)
  | .wait fuel pid => Schedule.wait idleproc initproc fuel k pid
  | .kill fuel pid => Schedule.kill idleproc fuel k pid
  | .sleep time => (Schedule.sleep k time).map (0, ·)
  | .up sem => (semUp idleproc k sem).map (0, ·)
  | .down sem => .ok (0, semDown k sem)
  | .tryDown sem => .ok (semTryDown k sem)
  | .yield => .ok (0, { k with procs :=
      { k.procs with need_resched := Function.update k.procs.need_resched k.procs.current true } })
  | .schedule => (reschedule idleproc k).map (0, ·)
  | .resume fuel => Schedule.resume idleproc initproc fuel k
  | .tick => (Schedule.tick idleproc k).map (0, ·)
  | .wakeup proc => (Schedule.wakeup idleproc k proc).map (0, ·)

/-- A `do_fork` in which `copy_files` finds no memory is not successful, although it returns a
pid: it frees the process that it has linked. -/
def Op.Succeeds : Op P S → Prop
  | .fork _ _ _ _ files => files = true
  | _ => True

/-- `sched_init` and `proc_init` up to the call of `kernel_thread` -/
def kernelInit (k : Kernel P S) : Kernel P S :=
  { k with
    procs := procInit k.procs idleproc
    rq := rrAlloc (rrInit k.rq) idleproc
    timers := []
    wait_queue := fun _ => []
    pc := fun _ => .run }

/-- The states behind `proc_init`, which forks `initproc`, and any calls after it. -/
inductive KernelRun : Kernel P S → Prop
  | init {k : Kernel P S} (k₀ : Kernel P S) (fuel : Nat) (pid : Int) : initproc ≠ idleproc →
      fork idleproc fuel (kernelInit idleproc k₀) (some initproc) true true true = .ok (pid, k) →
      KernelRun k
  | step {k k' : Kernel P S} (op : Op P S) (ret : Int) : KernelRun k → op.Enabled idleproc k →
      op.run idleproc initproc k = .ok (ret, k') → op.Succeeds → KernelRun k'

end

end Ucore.Schedule
