import Mathlib
import Ucore.Lib.Chain
import Ucore.Lib.Halt
import Ucore.Libs.List
import Ucore.Schedule.Proc

/-!
# `Ucore.Process.Proc`: processes, their lists and their parents

The functions of lab 5 in `kern/process/proc.c` and `kern/schedule/sched.c` that keep the set of
processes: the process list, the hash list by pid, and the children of each process. A field of
`struct proc_struct` is a map from the addresses of the structs. What has to do with memory and with
context switches is left out, and so are the fields for it: whether a kernel stack and an address
space could be had is an argument of `do_fork`.

A process that wakes up in `do_wait` goes on with the loop or with `do_exit`, and each of these is a
call of its own here. The walks carry fuel.

`ProcRun` is any sequence of calls of the process that runs, with `schedule` behind those that give
the processor up. What has been freed and allocated is recorded in `allocated`.
-/

set_option autoImplicit false

namespace Ucore.Process

open Ucore.Lib Ucore.Libs Ucore.Schedule

/-- `MAX_PROCESS`. -/
def MAX_PROCESS : Int := 4096

/-- `MAX_PID`. -/
def MAX_PID : Int := MAX_PROCESS * 2

/-- `HASH_SHIFT`. -/
def HASH_SHIFT : Nat := 10

/-- `HASH_LIST_SIZE`. -/
def HASH_LIST_SIZE : Nat := 2 ^ HASH_SHIFT

/-- `E_BAD_PROC` -/
def E_BAD_PROC : Int := 2
/-- `E_INVAL` -/
def E_INVAL : Int := 3
/-- `E_NO_MEM` -/
def E_NO_MEM : Int := 4
/-- `E_NO_FREE_PROC` -/
def E_NO_FREE_PROC : Int := 5
/-- `E_KILLED` -/
def E_KILLED : Int := 9

/-- `hash32` -/
def hash32 (val : BitVec 32) (bits : Nat) : Nat := ((val * 0x9e370001#32) >>> (32 - bits)).toNat

/-- `pid_hashfn` -/
def pidHashfn (pid : Int) : Nat := hash32 (BitVec.ofInt 32 pid) HASH_SHIFT

/-- The nodes of the lists: the heads, and two in each process. -/
inductive ListNode (P : Type) where
  | procList
  | hashList (i : Nat)
  | listLink (p : P)
  | hashLink (p : P)
  deriving DecidableEq

/-- The fields of the process structs, the lists, and the variables of `proc.c`. `allocated` are
the structs that `kmalloc` has given. -/
structure Procs (P : Type) where
  state : P → ProcState
  pid : P → Int
  need_resched : P → Bool
  parent : P → Option P
  exiting : P → Bool
  exit_code : P → Int
  wait_state : P → BitVec 32
  cptr : P → Option P
  yptr : P → Option P
  optr : P → Option P
  links : Links (ListNode P)
  nr_process : Int
  last_pid : Int
  next_safe : Int
  current : P
  allocated : List P

variable {P : Type} [DecidableEq P]

/-- `alloc_proc`, at the address that `kmalloc` has returned -/
def allocProc (s : Procs P) (proc : P) : Procs P :=
  { s with
    allocated := proc :: s.allocated
    state := Function.update s.state proc .uninit
    pid := Function.update s.pid proc (-1)
    need_resched := Function.update s.need_resched proc false
    parent := Function.update s.parent proc none
    exiting := Function.update s.exiting proc false
    wait_state := Function.update s.wait_state proc 0
    cptr := Function.update s.cptr proc none
    optr := Function.update s.optr proc none
    yptr := Function.update s.yptr proc none }

/-- `kfree(proc)` -/
def freeProc (s : Procs P) (proc : P) : Procs P :=
  { s with allocated := s.allocated.erase proc }

/-- `set_links`. A process without a parent would be a NULL pointer used. -/
def setLinks (s : Procs P) (proc : P) : Except Halt (Procs P) :=
  match s.parent proc with
  | none => .error .assert
  | some parent =>
      let optr := s.cptr parent
      .ok { s with
        links := listAdd s.links .procList (.listLink proc)
        yptr := setField (Function.update s.yptr proc none) optr (some proc)
        optr := Function.update s.optr proc optr
        cptr := Function.update s.cptr parent (some proc)
        nr_process := s.nr_process + 1 }

/-- `remove_links` -/
def removeLinks (s : Procs P) (proc : P) : Except Halt (Procs P) :=
  let s := { s with
    links := listDel s.links (.listLink proc)
    yptr := setField s.yptr (s.optr proc) (s.yptr proc) }
  match s.yptr proc, s.parent proc with
  | some yptr, _ =>
      .ok { s with
        optr := Function.update s.optr yptr (s.optr proc)
        nr_process := s.nr_process - 1 }
  | none, some parent =>
      .ok { s with
        cptr := Function.update s.cptr parent (s.optr proc)
        nr_process := s.nr_process - 1 }
  | none, none => .error .assert

/-- The scan of `get_pid` behind the label `repeat`, from the node `le` on. -/
def getPidLoop (s : Procs P) : Nat → ListNode P → Int → Int → Except Halt (Int × Int)
  | 0, _, _, _ => .error .fuel
  | fuel + 1, le, last_pid, next_safe =>
      match s.links.next le with
      | .listLink proc =>
          -- `++ last_pid >= next_safe`: the number is taken, and the known gap behind it is used
          -- up, so the list is searched again from its head, or the gap goes on.
          if s.pid proc = last_pid then
            if next_safe ≤ last_pid + 1 then
              getPidLoop s fuel .procList (if MAX_PID ≤ last_pid + 1 then 1 else last_pid + 1)
                MAX_PID
            else getPidLoop s fuel (.listLink proc) (last_pid + 1) next_safe
          -- A number above: the gap ends there at the latest.
          else if last_pid < s.pid proc ∧ s.pid proc < next_safe then
            getPidLoop s fuel (.listLink proc) last_pid (s.pid proc)
          else getPidLoop s fuel (.listLink proc) last_pid next_safe
      | _ => .ok (last_pid, next_safe)

/-- `get_pid` -/
def getPid (fuel : Nat) (s : Procs P) : Except Halt (Int × Procs P) := do
  let (last_pid, next_safe) ←
    if MAX_PID ≤ s.last_pid + 1 then getPidLoop s fuel .procList 1 MAX_PID
    else if s.next_safe ≤ s.last_pid + 1 then getPidLoop s fuel .procList (s.last_pid + 1) MAX_PID
    -- The fast path, without a look at the list.
    else .ok (s.last_pid + 1, s.next_safe)
  return (last_pid, { s with last_pid := last_pid, next_safe := next_safe })

/-- `hash_proc` -/
def hashProc (s : Procs P) (proc : P) : Procs P :=
  { s with links := listAdd s.links (.hashList (pidHashfn (s.pid proc))) (.hashLink proc) }

/-- `unhash_proc` -/
def unhashProc (s : Procs P) (proc : P) : Procs P :=
  { s with links := listDel s.links (.hashLink proc) }

/-- The loop of `find_proc`. -/
def findProcLoop (s : Procs P) (pid : Int) : Nat → ListNode P → Except Halt (Option P)
  | 0, _ => .error .fuel
  | fuel + 1, le =>
      match s.links.next le with
      | .hashLink proc =>
          if s.pid proc = pid then .ok (some proc) else findProcLoop s pid fuel (.hashLink proc)
      | _ => .ok none

/-- `find_proc` -/
def findProc (fuel : Nat) (s : Procs P) (pid : Int) : Except Halt (Option P) :=
  if 0 < pid ∧ pid < MAX_PID then findProcLoop s pid fuel (.hashList (pidHashfn pid))
  else .ok none

/-- `wakeup_proc` -/
def wakeupProc (s : Procs P) (proc : P) : Except Halt (Procs P) :=
  if s.state proc = .zombie then .error .assert
  else if s.state proc ≠ .runnable then
    .ok { s with
      state := Function.update s.state proc .runnable
      wait_state := Function.update s.wait_state proc 0 }
  else .ok s

/-- `do_fork`: `alloc` is the answer of `kmalloc`, and `kstack` and `mm` tell whether
`setup_kstack` and `copy_mm` have found memory. -/
def doFork (fuel : Nat) (s : Procs P) (alloc : Option P) (kstack mm : Bool) :
    Except Halt (Int × Procs P) :=
  if MAX_PROCESS ≤ s.nr_process then .ok (-E_NO_FREE_PROC, s)
  else
    match alloc with
    | none => .ok (-E_NO_MEM, s)
    | some proc =>
        let s := allocProc s proc
        let s := { s with parent := Function.update s.parent proc (some s.current) }
        if s.wait_state s.current ≠ 0 then .error .assert
        else if ¬ (kstack ∧ mm) then .ok (-E_NO_MEM, freeProc s proc)
        else do
          let (pid, s) ← getPid fuel s
          let s := { s with pid := Function.update s.pid proc pid }
          let s ← setLinks (hashProc s proc) proc
          let s ← wakeupProc s proc
          return (pid, s)

/-- The walk of `schedule` over the process list, from `le` until a runnable process or `last`. -/
def scheduleLoop (s : Procs P) (last : ListNode P) :
    Nat → ListNode P → Option P → Except Halt (Option P)
  | 0, _, _ => .error .fuel
  | fuel + 1, le, next =>
      match s.links.next le with
      | .listLink p =>
          if s.state p = .runnable then .ok (some p)
          -- The loop is a `do`-`while`: back at `last`, `next` is the process found there, runnable
          -- or not.
          else if .listLink p = last then .ok (some p)
          else scheduleLoop s last fuel (.listLink p) (some p)
      | le' => if le' = last then .ok next else scheduleLoop s last fuel le' next

section
variable (idleproc initproc : P)

/-- `schedule` and `proc_run` -/
def schedule (fuel : Nat) (s : Procs P) : Except Halt (Procs P) := do
  let s := { s with need_resched := Function.update s.need_resched s.current false }
  let last := if s.current = idleproc then .procList else .listLink s.current
  match ← scheduleLoop s last fuel last none with
  | none => return { s with current := idleproc }
  | some next =>
      return { s with current := if s.state next = .runnable then next else idleproc }

/-- The loop of `do_exit` that hands the children to `initproc`. -/
def exitChildren : Nat → Procs P → Except Halt (Procs P)
  | 0, _ => .error .fuel
  | fuel + 1, s =>
      match s.cptr s.current with
      | none => .ok s
      | some proc => do
          let s := { s with cptr := Function.update s.cptr s.current (s.optr proc) }
          -- The child goes in front of the children of `initproc`.
          let optr := s.cptr initproc
          let s := { s with
            yptr := setField (Function.update s.yptr proc none) optr (some proc)
            optr := Function.update s.optr proc optr
            parent := Function.update s.parent proc (some initproc)
            cptr := Function.update s.cptr initproc (some proc) }
          if s.state proc = .zombie ∧ s.wait_state initproc = WT_CHILD then
            let s ← wakeupProc s initproc
            exitChildren fuel s
          else exitChildren fuel s

/-- `do_exit` in front of its `schedule` -/
def exitProc (fuel : Nat) (s : Procs P) (error_code : Int) : Except Halt (Procs P) :=
  if s.current = idleproc then .error .assert
  else if s.current = initproc then .error .assert
  else do
    let s := { s with
      state := Function.update s.state s.current .zombie
      exit_code := Function.update s.exit_code s.current error_code }
    match s.parent s.current with
    | none => .error .assert
    | some proc =>
        let s ← if s.wait_state proc = WT_CHILD then wakeupProc s proc else .ok s
        exitChildren initproc fuel s

/-- `do_exit` -/
def doExit (fuel : Nat) (s : Procs P) (error_code : Int) : Except Halt (Procs P) := do
  let s ← exitProc idleproc initproc fuel s error_code
  schedule idleproc fuel s

/-- The loop of `do_wait` over the children, from `proc` on: a zombie, and whether there is a
child. -/
def waitLoop (s : Procs P) : Nat → Option P → Bool → Except Halt (Option P × Bool)
  | 0, _, _ => .error .fuel
  | _ + 1, none, haskid => .ok (none, haskid)
  | fuel + 1, some proc, _ =>
      if s.state proc = .zombie then .ok (some proc, true) else waitLoop s fuel (s.optr proc) true

/-- The search of `do_wait` behind the label `repeat`. -/
def waitSearch (fuel : Nat) (s : Procs P) (pid : Int) : Except Halt (Option P × Bool) :=
  if pid ≠ 0 then do
    match ← findProc fuel s pid with
    | none => return (none, false)
    | some proc =>
        if s.parent proc = some s.current then
          return (if s.state proc = .zombie then some proc else none, true)
        else return (none, false)
  else waitLoop s fuel (s.cptr s.current) false

/-- `do_wait` up to its return or its `schedule`. A return has a value. -/
def doWait (fuel : Nat) (s : Procs P) (pid : Int) : Except Halt (Option Int × Procs P) := do
  match ← waitSearch fuel s pid with
  | (some proc, _) =>
      if proc = idleproc ∨ proc = initproc then .error .assert
      else
        let s ← removeLinks (unhashProc s proc) proc
        return (some 0, freeProc s proc)
  | (none, true) =>
      let s := { s with
        state := Function.update s.state s.current .sleeping
        wait_state := Function.update s.wait_state s.current WT_CHILD }
      let s ← schedule idleproc fuel s
      return (none, s)
  | (none, false) => return (some (-E_BAD_PROC), s)

end

/-- `do_kill` -/
def doKill (fuel : Nat) (s : Procs P) (pid : Int) : Except Halt (Int × Procs P) := do
  match ← findProc fuel s pid with
  | none => return (-E_INVAL, s)
  | some proc =>
      if s.exiting proc then return (-E_KILLED, s)
      else
        let s := { s with exiting := Function.update s.exiting proc true }
        if s.wait_state proc &&& WT_INTERRUPTED ≠ 0 then
          let s ← wakeupProc s proc
          return (0, s)
        else return (0, s)

/-- `proc_init` up to the call of `kernel_thread` -/
def procInit (s : Procs P) (idleproc : P) : Procs P :=
  let s := { s with
    links := (List.range HASH_LIST_SIZE).foldl (fun l i => listInit l (.hashList i))
      (listInit s.links .procList)
    allocated := []
    nr_process := 0
    last_pid := MAX_PID
    next_safe := MAX_PID }
  let s := allocProc s idleproc
  { s with
    pid := Function.update s.pid idleproc 0
    state := Function.update s.state idleproc .runnable
    need_resched := Function.update s.need_resched idleproc true
    nr_process := s.nr_process + 1
    current := idleproc }

/-- A call of the current process. The idle process only calls `schedule`. -/
inductive ProcStep (idleproc initproc : P) (s s' : Procs P) : Prop
  | fork (fuel : Nat) (alloc : Option P) (kstack mm : Bool) (ret : Int) :
      s.current ≠ idleproc → (∀ proc, alloc = some proc → proc ∉ s.allocated) →
      doFork fuel s alloc kstack mm = .ok (ret, s') → ProcStep idleproc initproc s s'
  | exit (fuel : Nat) (error_code : Int) :
      doExit idleproc initproc fuel s error_code = .ok s' → ProcStep idleproc initproc s s'
  | wait (fuel : Nat) (pid : Int) (ret : Option Int) : s.current ≠ idleproc →
      doWait idleproc initproc fuel s pid = .ok (ret, s') → ProcStep idleproc initproc s s'
  | kill (fuel : Nat) (pid ret : Int) : s.current ≠ idleproc →
      doKill fuel s pid = .ok (ret, s') → ProcStep idleproc initproc s s'
  | schedule (fuel : Nat) : schedule idleproc fuel s = .ok s' → ProcStep idleproc initproc s s'

/-- The states behind `proc_init`, which forks `initproc`, and any calls after it. -/
inductive ProcRun (idleproc initproc : P) : Procs P → Prop
  | init {s : Procs P} (s₀ : Procs P) (fuel : Nat) (pid : Int) : initproc ≠ idleproc →
      doFork fuel (procInit s₀ idleproc) (some initproc) true true = .ok (pid, s) →
      ProcRun idleproc initproc s
  | step {s s' : Procs P} : ProcRun idleproc initproc s → ProcStep idleproc initproc s s' →
      ProcRun idleproc initproc s'

end Ucore.Process
