import Mathlib
import Ucore.Lib.Halt

/-!
# `Ucore.Schedule.Timer`: the timer list of `sched.c`

A timer on the list holds in `expires` the ticks from the timer before it on. The key of a timer
stands for its address. The list is that of the keys in the order of the links.

`add_timer`, `del_timer` and `run_timer_list` are the functions of the source over that list, with
their assertions. `expires` is an `unsigned int`. A tick takes the timers off the front that have
come to zero, and returns the processes that it wakes up, in order.

`TimerRun` is any sequence of additions, deletions and ticks, with the list of the calls beside that
of the timers.
-/

set_option autoImplicit false

namespace Ucore.Schedule

open Ucore.Lib

/-- A `timer_t` on the list. -/
structure Timer (K P : Type) where
  key : K
  expires : Nat
  proc : P
  deriving DecidableEq

variable {K P : Type} [DecidableEq K]

/-- `timer_link` is on the list. -/
def linked (key : K) (timers : List (Timer K P)) : Bool := timers.any fun timer => timer.key = key

/-- The loop of `add_timer`, with the insertion behind it. -/
def add_timer_loop (timer : Timer K P) : List (Timer K P) → List (Timer K P)
  | [] => [timer]
  | next :: rest =>
      if timer.expires < next.expires then
        timer :: { next with expires := next.expires - timer.expires } :: rest
      else
        next :: add_timer_loop { timer with expires := timer.expires - next.expires } rest

/-- `add_timer` -/
def add_timer (timer : Timer K P) (timers : List (Timer K P)) :
    Except Halt (List (Timer K P)) :=
  if timer.expires = 0 ∨ linked timer.key timers = true then .error .assert
  else .ok (add_timer_loop timer timers)

/-- What `del_timer` does to the timers behind the one that it takes off; `expires` is an
`unsigned int`. -/
def del_timer_next (expires : Nat) : List (Timer K P) → List (Timer K P)
  | [] => []
  | next :: rest =>
      if expires ≠ 0 then { next with expires := (next.expires + expires) % 2 ^ 32 } :: rest
      else next :: rest

/-- `del_timer`. A timer that is not on the list stays where it is. -/
def del_timer (key : K) : List (Timer K P) → List (Timer K P)
  | [] => []
  | timer :: rest =>
      if timer.key = key then del_timer_next timer.expires rest
      else timer :: del_timer key rest

/-- The loop of `run_timer_list`: the list behind it, and the timers that have expired, in
the order in which their processes are woken up. `wakeup_proc` does not touch the list, and
`del_timer` of a timer with `expires == 0` only takes it off. -/
def run_timer_list_loop : List (Timer K P) → List (Timer K P) × List (Timer K P)
  | [] => ([], [])
  | timer :: rest =>
      if timer.expires = 0 then
        ((run_timer_list_loop rest).1, timer :: (run_timer_list_loop rest).2)
      else (timer :: rest, [])

/-- `run_timer_list` -/
def run_timer_list : List (Timer K P) →
    Except Halt (List (Timer K P) × List (Timer K P))
  | [] => .ok ([], [])
  | timer :: rest =>
      if timer.expires = 0 then .error .assert
      else .ok (run_timer_list_loop ({ timer with expires := timer.expires - 1 } :: rest))

/-- A call, with what `timer_init` has put into a timer that is added. -/
inductive TimerCall (K P : Type) where
  | add (key : K) (expires : Fin (2 ^ 32)) (proc : P)
  | del (key : K)
  | tick

/-- What a call does: the list behind it, and the timers that have expired. -/
def TimerCall.run : TimerCall K P → List (Timer K P) →
    Except Halt (List (Timer K P) × List (Timer K P))
  | .add key expires proc, timers => do
      let timers ← add_timer { key := key, expires := expires.val, proc := proc } timers
      return (timers, [])
  | .del key, timers => .ok (del_timer key timers, [])
  | .tick, timers => run_timer_list timers

/-- Calls that have returned, one after another, from the empty list of `sched_init` on. The
log has the last call first. -/
inductive TimerRun : List (TimerCall K P) → List (Timer K P) → Prop
  | init : TimerRun [] []
  | step {log : List (TimerCall K P)} {timers timers' expired : List (Timer K P)}
      (call : TimerCall K P) : TimerRun log timers →
      call.run timers = .ok (timers', expired) → TimerRun (call :: log) timers'

end Ucore.Schedule
