import Ucore.Lib.Semaphore
import Mathlib

/-!
# `Ucore.Sync.Monitor`: the monitor of `monitor.c`

A monitor has the semaphores `mutex` and `next`, and one for each condition variable. Its
processes are the processes of a `Client`, a program whose instructions are the calls of
the monitor: `down(&mtp->mutex)` to enter, `cond_signal`, `cond_wait`, and the branch on
`next_count` to leave. A client signals, waits and leaves only inside.

`monitor` is the program of these processes over single semaphore operations. The labels
of `MonitorLabel` are the places inside `cond_signal`, `cond_wait` and the leaving branch,
each with the label of the client at which the process goes on. The down and the up are
those of `__down` and `__up`.
-/

set_option autoImplicit false

namespace Ucore.Sync

open Ucore.Lib

/-- The semaphores of a monitor with the condition variables `C`. -/
inductive MonitorSem (C : Type)
  | mutex
  | next
  | cond (cv : C)
deriving DecidableEq, Fintype

/-- What the client does at a label, over its labels `K` and its data `D`. -/
inductive Call (C K D : Type)
  /-- Enter the monitor. -/
  | enter (next : K)
  /-- Leave the monitor. -/
  | leave (next : K)
  /-- Call `cond_signal`. -/
  | signal (cv : C) (next : K)
  /-- Call `cond_wait`. -/
  | wait (cv : C) (next : K)
  /-- Read and change the data. -/
  | exec (f : D → K × D)
  /-- Go to any of some labels. -/
  | choose (next : K → Prop)

/-- The calls that the processes make, and the labels at which they are inside. -/
structure Client (P C K D : Type) where
  call : P → K → Call C K D
  inside : P → K → Bool
  enter : ∀ p k k', call p k = .enter k' → inside p k = false ∧ inside p k' = true
  leave : ∀ p k k', call p k = .leave k' → inside p k = true ∧ inside p k' = false
  signal : ∀ p k cv k', call p k = .signal cv k' → inside p k = true ∧ inside p k' = true
  wait : ∀ p k cv k', call p k = .wait cv k' → inside p k = true ∧ inside p k' = true
  exec : ∀ p k f, call p k = .exec f → ∀ d, inside p (f d).1 = inside p k
  choose : ∀ p k R, call p k = .choose R → ∀ k', R k' → inside p k' = inside p k

/-- Where a process is: at a label of the client, or in a call from which it goes on at
the label `k`. -/
inductive MonitorLabel (C K : Type)
  | client (k : K)
  /-- `mtp->next_count++` of `cond_signal` -/
  | signalInc (cv : C) (k : K)
  /-- `up(&(cvp->sem))` -/
  | signalUp (cv : C) (k : K)
  /-- `down(&(mtp->next))` -/
  | signalDown (cv : C) (k : K)
  /-- `mtp->next_count--` -/
  | signalDec (cv : C) (k : K)
  /-- `if (mtp->next_count > 0)` of `cond_wait` -/
  | waitTest (cv : C) (k : K)
  /-- `up(&(mtp->next))` -/
  | waitUpNext (cv : C) (k : K)
  /-- `up(&(mtp->mutex))` -/
  | waitUpMutex (cv : C) (k : K)
  /-- `down(&(cvp->sem))` -/
  | waitDown (cv : C) (k : K)
  /-- `cvp->count--` -/
  | waitDec (cv : C) (k : K)
  /-- `up(&(mtp->next))` on leaving -/
  | leaveUpNext (k : K)
  /-- `up(&(mtp->mutex))` on leaving -/
  | leaveUpMutex (k : K)

/-- The counters of the monitor, and the data of the client. -/
structure MonitorMem (C D : Type) where
  next_count : Int
  count : C → Int
  data : D

section

variable {P C K D : Type} [DecidableEq C]

/-- The first instruction of each call. -/
def callInstr : Call C K D → Instr (MonitorSem C) (MonitorLabel C K) (MonitorMem C D)
  | .enter k => .down .mutex (.client k)
  | .leave k => .exec fun m => (if m.next_count > 0 then .leaveUpNext k else .leaveUpMutex k, m)
  | .signal cv k => .exec fun m => (if m.count cv > 0 then .signalInc cv k else .client k, m)
  | .wait cv k => .exec fun m =>
      (.waitTest cv k, { m with count := Function.update m.count cv (m.count cv + 1) })
  | .exec f => .exec fun m => (.client (f m.data).1, { m with data := (f m.data).2 })
  | .choose R => .choose fun l => ∃ k, R k ∧ l = .client k

/-- The instructions of the processes of a monitor. -/
def monitorInstr (client : Client P C K D) (p : P) :
    MonitorLabel C K → Instr (MonitorSem C) (MonitorLabel C K) (MonitorMem C D)
  | .client k => callInstr (client.call p k)
  | .signalInc cv k => .exec fun m => (.signalUp cv k, { m with next_count := m.next_count + 1 })
  | .signalUp cv k => .up (.cond cv) (.signalDown cv k)
  | .signalDown cv k => .down .next (.signalDec cv k)
  | .signalDec _ k => .exec fun m => (.client k, { m with next_count := m.next_count - 1 })
  | .waitTest cv k => .exec fun m =>
      (if m.next_count > 0 then .waitUpNext cv k else .waitUpMutex cv k, m)
  | .waitUpNext cv k => .up .next (.waitDown cv k)
  | .waitUpMutex cv k => .up .mutex (.waitDown cv k)
  | .waitDown cv k => .down (.cond cv) (.waitDec cv k)
  | .waitDec cv k => .exec fun m =>
      (.client k, { m with count := Function.update m.count cv (m.count cv - 1) })
  | .leaveUpNext k => .up .next (.client k)
  | .leaveUpMutex k => .up .mutex (.client k)

/-- The processes of a monitor. All its semaphores pass the token. -/
def monitor (client : Client P C K D) :
    Program P (MonitorSem C) (MonitorLabel C K) (MonitorMem C D) where
  instr := monitorInstr client
  token _ := true

/-- The state after `monitor_init`, with every process at its first label. -/
def monitor_init (start : P → K) (data : D) :
    Conf P (MonitorSem C) (MonitorLabel C K) (MonitorMem C D) where
  sem
    | .mutex => ⟨1, []⟩
    | .next => ⟨0, []⟩
    | .cond _ => ⟨0, []⟩
  pc p := .client (start p)
  asleep _ := false
  active _ := false
  mem := { next_count := 0, count := fun _ => 0, data := data }

end

namespace MonitorLabel

variable {C K : Type}

/-- The signaller has handed the monitor over and waits for `next`. -/
def suspended : MonitorLabel C K → Bool
  | .signalDown _ _ => true
  | _ => false

/-- The waiter has handed the monitor over and waits for the condition variable. -/
def blocked [DecidableEq C] (cv : C) : MonitorLabel C K → Bool
  | .waitDown cv' _ => decide (cv' = cv)
  | _ => false

/-- The process counts in `next_count`. -/
def signals : MonitorLabel C K → Bool
  | .signalUp _ _ | .signalDown _ _ | .signalDec _ _ => true
  | _ => false

/-- The process counts in the `count` of the condition variable: it has raised it, and not
yet lowered it. -/
def waits [DecidableEq C] (cv : C) : MonitorLabel C K → Bool
  | .waitTest cv' _ | .waitUpNext cv' _ | .waitUpMutex cv' _ | .waitDown cv' _
  | .waitDec cv' _ => decide (cv' = cv)
  | _ => false

end MonitorLabel

end Ucore.Sync
