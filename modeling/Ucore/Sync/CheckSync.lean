import Ucore.Sync.Monitor
import Mathlib

/-!
# `Ucore.Sync.CheckSync`: the dining philosophers of `check_sync.c`

The philosophers sit in a ring of any size. `phiSema` is their program over the semaphores `mutex`
and `s[i]`, and `phiCondvar` the one over a monitor with the condition variables `cv[i]`. Both use
the same three states and the same test. `phi_test_sema` and `phi_test_condvar` are called at three
places, for the philosopher itself, its left and its right neighbour; `Seat` says for which, and
`after` where the caller goes on.

The instructions of a philosopher are labels of a program over semaphores (`Ucore.Lib.Semaphore`),
one for each operation on a semaphore or on the states. With a monitor, the operations inside
`cond_signal` and `cond_wait` are those of `Ucore.Sync.Monitor`, and a philosopher is a client of
it.

Sleeping for a while, and how often the loop goes around, are left open: a philosopher goes on as
long as it likes.
-/

set_option autoImplicit false

namespace Ucore.Sync

open Ucore.Lib

/-- `THINKING`, `HUNGRY` and `EATING`. -/
inductive PhiState
  | thinking
  | hungry
  | eating
deriving DecidableEq

section

variable {n : Nat}

/-- `LEFT`: `(i-1+N)%N`. -/
def left (i : Fin n) : Fin n := ⟨(i + n - 1) % n, Nat.mod_lt _ i.pos⟩

/-- `RIGHT`: `(i+1)%N`. -/
def right (i : Fin n) : Fin n := ⟨(i + 1) % n, Nat.mod_lt _ i.pos⟩

/-- Whom a call of `phi_test_sema` or `phi_test_condvar` is about. -/
inductive Seat
  | own
  | left
  | right

/-- The philosopher that `i` tests. -/
def Seat.of (i : Fin n) : Seat → Fin n
  | .own => i
  | .left => Ucore.Sync.left i
  | .right => Ucore.Sync.right i

/-- The condition of `phi_test_sema` and `phi_test_condvar`. -/
def mayEat (state : Fin n → PhiState) (i : Fin n) : Bool :=
  state i = .hungry && state (left i) ≠ .eating && state (right i) ≠ .eating

/-! ### With semaphores -/

/-- `mutex` and `s[N]`. -/
inductive SemaSem (n : Nat)
  | mutex
  | s (i : Fin n)
deriving DecidableEq, Fintype

/-- Where a philosopher is. -/
inductive SemaLabel
  /-- At `down(&mutex)` of `phi_take_forks_sema`. -/
  | think
  /-- `state_sema[i]=HUNGRY` -/
  | setHungry
  /-- The condition of `phi_test_sema`. -/
  | test (w : Seat)
  /-- `state_sema[i]=EATING` -/
  | setEating (w : Seat)
  /-- `up(&s[i])` -/
  | upS (w : Seat)
  /-- `up(&mutex)` of `phi_take_forks_sema` -/
  | takeUp
  /-- `down(&s[i])` -/
  | takeDown
  /-- At `down(&mutex)` of `phi_put_forks_sema`. -/
  | eat
  /-- `state_sema[i]=THINKING` -/
  | setThinking
  /-- `up(&mutex)` of `phi_put_forks_sema` -/
  | putUp

/-- Where a philosopher goes on behind `phi_test_sema`. -/
def SemaLabel.after : Seat → SemaLabel
  | .own => .takeUp
  | .left => .test .right
  | .right => .putUp

/-- `philosopher_using_semaphore`, any number of rounds. -/
def phiSemaInstr (i : Fin n) : SemaLabel → Instr (SemaSem n) SemaLabel (Fin n → PhiState)
  | .think => .down .mutex .setHungry
  | .setHungry => .exec fun state => (.test .own, Function.update state i .hungry)
  | .test w => .exec fun state => (if mayEat state (w.of i) then .setEating w else .after w, state)
  | .setEating w => .exec fun state => (.upS w, Function.update state (w.of i) .eating)
  | .upS w => .up (.s (w.of i)) (.after w)
  | .takeUp => .up .mutex .takeDown
  | .takeDown => .down (.s i) .eat
  | .eat => .down .mutex .setThinking
  | .setThinking => .exec fun state => (.test .left, Function.update state i .thinking)
  | .putUp => .up .mutex .think

/-- The philosophers with semaphores. Only `mutex` passes the token. -/
def phiSema (n : Nat) : Program (Fin n) (SemaSem n) SemaLabel (Fin n → PhiState) where
  instr := phiSemaInstr
  token
    | .mutex => true
    | .s _ => false

/-- The state after `sem_init(&mutex, 1)` and `sem_init(&s[i], 0)`. -/
def phiSema_init (n : Nat) : Conf (Fin n) (SemaSem n) SemaLabel (Fin n → PhiState) where
  sem
    | .mutex => ⟨1, []⟩
    | .s _ => ⟨0, []⟩
  pc _ := .think
  asleep _ := false
  active _ := false
  mem _ := .thinking

/-! ### With a monitor -/

/-- Where a philosopher is, outside the calls of the monitor. -/
inductive CondvarLabel
  /-- At `down(&(mtp->mutex))` of `phi_take_forks_condvar`. -/
  | think
  /-- `state_condvar[i] = HUNGRY` -/
  | setHungry
  /-- The condition of `phi_test_condvar`. -/
  | test (w : Seat)
  /-- `state_condvar[i] = EATING` -/
  | setEating (w : Seat)
  /-- `cond_signal(&mtp->cv[i])` -/
  | signal (w : Seat)
  /-- `if (state_condvar[i] == HUNGRY)` -/
  | check
  /-- `cond_wait(&mtp->cv[i])` -/
  | wait
  /-- The end of `phi_take_forks_condvar`. -/
  | takeLeave
  /-- At `down(&(mtp->mutex))` of `phi_put_forks_condvar`. -/
  | eat
  /-- `state_condvar[i] = THINKING` -/
  | setThinking
  /-- The end of `phi_put_forks_condvar`. -/
  | putLeave

/-- Where a philosopher goes on behind `phi_test_condvar`. -/
def CondvarLabel.after : Seat → CondvarLabel
  | .own => .check
  | .left => .test .right
  | .right => .putLeave

/-- `philosopher_using_condvar`, any number of rounds. -/
def phiCondvarCall (i : Fin n) :
    CondvarLabel → Call (Fin n) CondvarLabel (Fin n → PhiState)
  | .think => .enter .setHungry
  | .setHungry => .exec fun state => (.test .own, Function.update state i .hungry)
  | .test w => .exec fun state => (if mayEat state (w.of i) then .setEating w else .after w, state)
  | .setEating w => .exec fun state => (.signal w, Function.update state (w.of i) .eating)
  | .signal w => .signal (w.of i) (.after w)
  | .check => .exec fun state => (if state i = .hungry then .wait else .takeLeave, state)
  | .wait => .wait i .takeLeave
  | .takeLeave => .leave .eat
  | .eat => .enter .setThinking
  | .setThinking => .exec fun state => (.test .left, Function.update state i .thinking)
  | .putLeave => .leave .think

/-- A philosopher thinks and eats outside the monitor. -/
def CondvarLabel.inside : CondvarLabel → Bool
  | .think | .eat => false
  | _ => true

/-- A philosopher holds the monitor behind each call of `phi_test_condvar`. -/
theorem CondvarLabel.inside_after (w : Seat) : (CondvarLabel.after w).inside = true := by
  cases w <;> rfl

/-- The philosophers with a monitor. -/
def phiCondvar (n : Nat) : Client (Fin n) (Fin n) CondvarLabel (Fin n → PhiState) where
  call := phiCondvarCall
  inside _ := CondvarLabel.inside
  enter p k k' h := by
    cases k <;> cases h <;> exact ⟨rfl, rfl⟩
  leave p k k' h := by
    cases k <;> cases h <;> exact ⟨rfl, rfl⟩
  signal p k cv k' h := by
    cases k <;> cases h
    exact ⟨rfl, CondvarLabel.inside_after _⟩
  wait p k cv k' h := by
    cases k <;> cases h
    exact ⟨rfl, rfl⟩
  exec p k f h state := by
    cases k with
    | test w =>
        cases h
        dsimp only
        split
        · rfl
        · exact CondvarLabel.inside_after w
    | check =>
        cases h
        dsimp only
        split <;> rfl
    | _ => cases h <;> rfl
  choose p k R h k' hk' := by
    cases k <;> cases h

/-- The state after `monitor_init`, with every philosopher thinking. -/
def phiCondvar_init (n : Nat) : Conf (Fin n) (MonitorSem (Fin n))
    (MonitorLabel (Fin n) CondvarLabel) (MonitorMem (Fin n) (Fin n → PhiState)) :=
  monitor_init (fun _ => .think) (fun _ => .thinking)

end

end Ucore.Sync
