import Mathlib

/-!
# `Ucore.Fs.Stdin`: the console input of `dev_stdin.c`

`dev_stdin_write` runs in the timer interrupt, and `dev_stdin_read` with interrupts off up to the
point where it waits. So a step is an interrupt, or the part of a read up to the next wait or the
return. A reader that waits is on the wait queue until `wakeup_queue` takes it off; `do_kill` wakes
it without that.

Two lists record what happens and are not read: the characters for which `p_wpos` advanced, and the
characters that readers took out.

The positions are `off_t`, which do not come to their end in any run that a machine can make; here
they are numbers without a bound. Any number of processes may read at the same time. A reader that
has not got all of its characters goes to sleep, and is woken up by the next character or by
`do_kill`.
-/

set_option autoImplicit false

namespace Ucore.Fs

/-- `STDIN_BUFSIZE`. -/
def STDIN_BUFSIZE : Nat := 4096

/-- `wait->wakeup_flags` of a reader in `dev_stdin_read`, and whether it has been woken up. -/
structure StdinWait where
  /-- What the reader has put into its buffer. -/
  buf : List UInt8
  /-- `len - ret` -/
  left : Nat
  /-- `wakeup_flags == WT_KBD` -/
  kbd : Bool
  runnable : Bool

/-- The buffer, the wait queue, and the readers that wait in `dev_stdin_read`. -/
structure Stdin (P : Type) where
  stdin_buffer : Nat → UInt8
  p_rpos : Nat
  p_wpos : Nat
  wait_queue : List P
  waits : P → Option StdinWait
  accepted : List UInt8
  taken : List UInt8

variable {P : Type} [DecidableEq P]

namespace Stdin

/-- `stdin_device_init` -/
def stdin_device_init (s : Stdin P) : Stdin P :=
  { s with p_rpos := 0, p_wpos := 0, wait_queue := [], waits := fun _ => none,
           accepted := [], taken := [] }

/-- `wakeup_queue(wait_queue, WT_KBD, 1)` -/
def wakeup_queue (s : Stdin P) : Stdin P :=
  { s with
    wait_queue := []
    waits := fun p =>
      if p ∈ s.wait_queue then
        (s.waits p).map fun w => { w with kbd := true, runnable := true }
      else s.waits p }

/-- `dev_stdin_write` -/
def dev_stdin_write (s : Stdin P) (c : UInt8) : Stdin P :=
  if c ≠ 0 then
    -- The character is stored before the test whether there is room: in a full buffer it takes the
    -- place of the oldest one.
    let s := { s with
      stdin_buffer := Function.update s.stdin_buffer (s.p_wpos % STDIN_BUFSIZE) c }
    let s := if s.p_wpos - s.p_rpos < STDIN_BUFSIZE then
        { s with p_wpos := s.p_wpos + 1, accepted := s.accepted ++ [c] }
      else s
    s.wakeup_queue
  else s

/-- The loop of `dev_stdin_read` of the reader `p`, which has `buf` and wants `left` more: what it
returns, or it waits. -/
def dev_stdin_read_loop (p : P) : Nat → List UInt8 → Stdin P → Option (List UInt8) × Stdin P
  | 0, buf, s => (some buf, s)
  | left + 1, buf, s =>
      if s.p_rpos < s.p_wpos then
        let c := s.stdin_buffer (s.p_rpos % STDIN_BUFSIZE)
        dev_stdin_read_loop p left (buf ++ [c])
          { s with p_rpos := s.p_rpos + 1, taken := s.taken ++ [c] }
      else
        (none,
          { s with
            wait_queue := s.wait_queue ++ [p]
            waits := Function.update s.waits p (some ⟨buf, left + 1, false, false⟩) })

/-- `dev_stdin_read` behind the `schedule` that it has waited in: `wait_current_del`, and the loop
goes on unless something else than a character has woken the reader. -/
def dev_stdin_resume (p : P) (w : StdinWait) (s : Stdin P) : Option (List UInt8) × Stdin P :=
  let s := { s with
    wait_queue := s.wait_queue.erase p
    waits := Function.update s.waits p none }
  -- `break`: what was read up to here is what the call returns.
  if w.kbd = true then dev_stdin_read_loop p w.left w.buf s else (some w.buf, s)

end Stdin

/-- A character arrives, a process calls `dev_stdin_read` or is killed while it waits there, or a
reader that has been woken up runs. -/
inductive StdinOp (P : Type) where
  | arrive (c : UInt8)
  | read (p : P) (len : Nat)
  | interrupt (p : P)
  | resume (p : P)

namespace StdinOp

open Stdin

/-- A process that waits does not call. -/
def Enabled (s : Stdin P) : StdinOp P → Prop
  | arrive _ => True
  | read p _ => s.waits p = none
  | interrupt p => (s.waits p).isSome = true
  | resume p => ∃ w, s.waits p = some w ∧ w.runnable = true

/-- The step, with what a call of `dev_stdin_read` that ends in it has put into its buffer. -/
def run (s : Stdin P) : StdinOp P → Option (List UInt8) × Stdin P
  | arrive c => (none, s.dev_stdin_write c)
  | read p len => dev_stdin_read_loop p len [] s
  | interrupt p =>
      (none,
        { s with waits :=
          Function.update s.waits p ((s.waits p).map fun w => { w with runnable := true }) })
  | resume p =>
      match s.waits p with
      | some w => dev_stdin_resume p w s
      | none => (none, s)

end StdinOp

/-- The states behind `dev_init_stdin` and any steps after it that meet a condition. -/
inductive StdinRun (cond : Stdin P → StdinOp P → Prop) : Stdin P → Prop
  | init (s : Stdin P) : StdinRun cond s.stdin_device_init
  | step {s : Stdin P} (op : StdinOp P) : StdinRun cond s → op.Enabled s → cond s op →
      StdinRun cond (op.run s).2

end Ucore.Fs
