import Ucore.Fs.Stdin
import Ucore.Lib.RingBuffer

/-!
# `Ucore.Proofs.Fs.Stdin`: the console input as a queue

`unread` is what stands in the ring between `p_rpos` and `p_wpos`. The invariant `StdinOk` says that
the accepted characters are those that have been taken, followed by the unread ones.

`dev_stdin_write` stores the character before it looks for room. So a character that arrives at a
full buffer replaces the oldest one that is unread (`unread_write_full`), and the invariant needs
that this does not happen, or that the two are the same (`KeepsOldest`).

## The steps

* `StdinOk.write`: a character that arrives. With room it is appended to `unread`; with none it is
  not accepted, and `KeepsOldest` says that the ring is as before.
* `StdinOk.read_loop`: the loop of a reader that finds characters, by induction on what it still has
  to read; each round takes the oldest unread character (`StdinOk.take`).
* `StdinOk.of_run`: the invariant in every state of a run that meets the condition.

`stdin_fifo` says what the invariant means for the readers: what they have taken, one after another
and over all of them, is a prefix of what was accepted. It also says when the next step keeps this:
exactly when it meets the condition. `stdin_not_fifo` is the run that breaks it, with 4096 times one
character, then another one, and a read.
-/

set_option autoImplicit false
set_option linter.unusedSectionVars false

namespace Ucore.Proofs.Fs

open Ucore.Lib Ucore.Fs Ucore.Fs.Stdin

variable {P : Type} [DecidableEq P] {s : Stdin P}

/-- The characters that are accepted and not yet read. -/
def unread (s : Stdin P) : List UInt8 :=
  RingBuffer.contents STDIN_BUFSIZE s.stdin_buffer s.p_rpos s.p_wpos

/-- `p_wpos - p_rpos` is the size of the buffer. -/
def Full (s : Stdin P) : Prop := s.p_wpos = s.p_rpos + STDIN_BUFSIZE

/-- The invariant: between the two positions stand the characters that nobody has taken yet. -/
structure StdinOk (s : Stdin P) : Prop where
  le : s.p_rpos ≤ s.p_wpos
  size : s.p_wpos ≤ s.p_rpos + STDIN_BUFSIZE
  accepted : s.accepted = s.taken ++ unread s

/-- The condition on a step: a character that arrives at a full buffer is the oldest unread one. -/
def KeepsOldest (s : Stdin P) : StdinOp P → Prop
  | .arrive c => Full s → c ≠ 0 → (unread s).head? = some c
  | _ => True

/-- `dev_stdin_write` of a character while there is room. -/
theorem unread_write_room {c : UInt8} (h : StdinOk s) (hc : c ≠ 0) (hroom : ¬ Full s) :
    unread (s.dev_stdin_write c) = unread s ++ [c] ∧
      (s.dev_stdin_write c).accepted = s.accepted ++ [c] ∧
      (s.dev_stdin_write c).p_wpos = s.p_wpos + 1 := by
  have hle := h.le
  have hsize := h.size
  unfold Full at hroom
  have hlt : s.p_wpos - s.p_rpos < STDIN_BUFSIZE := by omega
  unfold dev_stdin_write
  rw [if_pos hc]
  dsimp only
  rw [if_pos hlt]
  have hlt' : s.p_wpos < s.p_rpos + STDIN_BUFSIZE := by omega
  exact ⟨RingBuffer.contents_push c hle hlt', rfl, rfl⟩

/-- `dev_stdin_write` of a character when the buffer is full: it takes the place of the oldest. -/
theorem unread_write_full {c : UInt8} (hc : c ≠ 0) (hfull : Full s) :
    unread (s.dev_stdin_write c) = c :: (unread s).tail ∧
      (s.dev_stdin_write c).accepted = s.accepted ∧
      (s.dev_stdin_write c).p_wpos = s.p_wpos := by
  unfold Full at hfull
  have hge : ¬ s.p_wpos - s.p_rpos < STDIN_BUFSIZE := by omega
  unfold dev_stdin_write
  rw [if_pos hc]
  dsimp only
  rw [if_neg hge]
  refine ⟨?_, rfl, rfl⟩
  have hn : 0 < STDIN_BUFSIZE := by decide
  show RingBuffer.contents STDIN_BUFSIZE
    (Function.update s.stdin_buffer (s.p_wpos % STDIN_BUFSIZE) c) s.p_rpos s.p_wpos = _
  have hlt : s.p_rpos < s.p_wpos := by
    rw [hfull]
    exact Nat.lt_add_of_pos_right hn
  rw [RingBuffer.contents_store_full c hn hfull, unread]
  exact congrArg (List.cons c ·.tail) (RingBuffer.contents_pop hlt).symm

/-- What `dev_stdin_write` leaves as it is. -/
theorem write_frame (s : Stdin P) (c : UInt8) :
    (s.dev_stdin_write c).p_rpos = s.p_rpos ∧ (s.dev_stdin_write c).taken = s.taken := by
  unfold dev_stdin_write
  split
  · dsimp only
    split <;> exact ⟨rfl, rfl⟩
  · exact ⟨rfl, rfl⟩

/-- A zero is no input. -/
theorem write_zero (s : Stdin P) : s.dev_stdin_write 0 = s := by
  unfold dev_stdin_write
  rw [if_neg (by decide)]

/-- A character that is dropped changes no unread one, when the condition holds. -/
theorem unread_write_of_full {c : UInt8} (hfull : Full s) (h : KeepsOldest s (.arrive c)) :
    unread (s.dev_stdin_write c) = unread s := by
  by_cases hc : c = 0
  · rw [hc, write_zero]
  · have hhead := h hfull hc
    rw [(unread_write_full hc hfull).1]
    cases hlist : unread s with
    | nil =>
        rw [hlist] at hhead
        cases hhead
    | cons d rest =>
        rw [hlist] at hhead
        rw [Option.some.inj hhead]
        rfl

/-- Otherwise it changes the oldest one. -/
theorem unread_write_ne {c : UInt8} (hfull : Full s) (h : ¬ KeepsOldest s (.arrive c)) :
    unread (s.dev_stdin_write c) ≠ unread s := by
  intro heq
  refine h fun _ hc => ?_
  rw [← heq, (unread_write_full hc hfull).1]
  rfl

/-- A character that drops no unread one keeps the invariant. -/
theorem StdinOk.write (h : StdinOk s) {c : UInt8} (hcond : KeepsOldest s (.arrive c)) :
    StdinOk (s.dev_stdin_write c) := by
  obtain ⟨hr, ht⟩ := write_frame s c
  by_cases hc : c = 0
  · rw [hc, write_zero]
    exact h
  · have hle := h.le
    have hsize := h.size
    by_cases hfull : Full s
    · obtain ⟨-, hacc, hw⟩ := unread_write_full hc hfull
      refine ⟨by rw [hr, hw]; exact hle, by rw [hr, hw]; exact hsize, ?_⟩
      rw [hacc, ht, unread_write_of_full hfull hcond]
      exact h.accepted
    · obtain ⟨hun, hacc, hw⟩ := unread_write_room h hc hfull
      unfold Full at hfull
      refine ⟨by rw [hr, hw]; omega, by rw [hr, hw]; omega, ?_⟩
      rw [hacc, ht, hun, h.accepted, List.append_assoc]

/-- A reader takes the oldest unread character. -/
theorem StdinOk.take (h : StdinOk s) (hlt : s.p_rpos < s.p_wpos) :
    StdinOk { s with
      p_rpos := s.p_rpos + 1
      taken := s.taken ++ [s.stdin_buffer (s.p_rpos % STDIN_BUFSIZE)] } := by
  have hsize := h.size
  refine ⟨hlt, ?_, ?_⟩
  · show s.p_wpos ≤ s.p_rpos + 1 + STDIN_BUFSIZE
    omega
  · show s.accepted = s.taken ++ [_] ++
      RingBuffer.contents STDIN_BUFSIZE s.stdin_buffer (s.p_rpos + 1) s.p_wpos
    rw [h.accepted, unread, RingBuffer.contents_pop hlt, List.append_assoc]
    rfl

/-- The loop of `dev_stdin_read` keeps the invariant. -/
theorem StdinOk.read_loop (p : P) : ∀ (left : Nat) (buf : List UInt8) {s : Stdin P}, StdinOk s →
    StdinOk (dev_stdin_read_loop p left buf s).2 := by
  intro left
  induction left with
  | zero => exact fun _ _ h => h
  | succ left ih =>
      intro buf s h
      unfold dev_stdin_read_loop
      split
      · rename_i hlt
        exact ih _ (h.take hlt)
      · exact ⟨h.le, h.size, h.accepted⟩

/-- A step that meets the condition keeps the invariant. -/
theorem StdinOk.step (h : StdinOk s) {op : StdinOp P} (hcond : KeepsOldest s op) :
    StdinOk (op.run s).2 := by
  cases op with
  | arrive c => exact h.write hcond
  | read p len => exact StdinOk.read_loop p len [] h
  | interrupt p => exact ⟨h.le, h.size, h.accepted⟩
  | resume p =>
      unfold StdinOp.run
      dsimp only
      split
      · rename_i w _
        have hoff : StdinOk { s with
            wait_queue := s.wait_queue.erase p, waits := Function.update s.waits p none } :=
          ⟨h.le, h.size, h.accepted⟩
        unfold dev_stdin_resume
        dsimp only
        split
        · exact StdinOk.read_loop p w.left w.buf hoff
        · exact hoff
      · exact h

/-- The invariant holds in every state of a run that meets the condition. -/
theorem StdinOk.of_run (hrun : StdinRun KeepsOldest s) : StdinOk s := by
  induction hrun with
  | init s =>
      refine ⟨Nat.le_refl 0, Nat.zero_le _, ?_⟩
      exact (RingBuffer.contents_self STDIN_BUFSIZE s.stdin_buffer 0).symm
  | step op _ _ hcond ih => exact ih.step hcond

/-- In every run whose steps meet the condition the taken characters are the first ones of the
accepted characters, the indices are at most the size of the buffer apart, and a character that
arrives at the full buffer changes none of the unread ones if and only if the condition holds of
it. -/
theorem stdin_fifo (hrun : StdinRun KeepsOldest s) :
    s.taken <+: s.accepted ∧ s.p_rpos ≤ s.p_wpos ∧ s.p_wpos ≤ s.p_rpos + STDIN_BUFSIZE ∧
      ∀ c, Full s → (unread (s.dev_stdin_write c) = unread s ↔ KeepsOldest s (.arrive c)) := by
  have hok := StdinOk.of_run hrun
  refine ⟨⟨unread s, hok.accepted.symm⟩, hok.le, hok.size, fun c hfull => ⟨?_, ?_⟩⟩
  · intro heq
    by_contra hcond
    exact unread_write_ne hfull hcond heq
  · exact unread_write_of_full hfull

/-- Some characters of a run. -/
theorem stdin_fifo_init : ∃ s : Stdin Nat, StdinRun KeepsOldest s ∧ s.accepted = [97, 98] ∧
    s.taken = [97] ∧ s.taken <+: s.accepted := by
  have hinit : StdinRun (P := Nat) KeepsOldest (stdin_device_init
      ⟨fun _ => 0, 0, 0, [], fun _ => none, [], []⟩) := .init _
  have hnot : ∀ (s : Stdin Nat) (c : UInt8), s.p_wpos < 4096 → KeepsOldest s (.arrive c) := by
    intro s c hlt hfull
    unfold Full STDIN_BUFSIZE at hfull
    omega
  have hrun := ((hinit.step (.arrive 97) trivial (hnot _ _ (by decide))).step (.arrive 98) trivial
    (hnot _ _ (by decide))).step (.read 5 1) rfl trivial
  exact ⟨_, hrun, by decide, by decide, (stdin_fifo hrun).1⟩

/-! ### A character that arrives at the full buffer -/

/-- A character puts nobody to sleep. -/
theorem waits_write (s : Stdin P) (c : UInt8) (p : P) (h : s.waits p = none) :
    (s.dev_stdin_write c).waits p = none := by
  unfold dev_stdin_write
  dsimp only
  split
  · split <;> simp [wakeup_queue, h]
  · exact h

/-- A read of one character that is there. -/
theorem read_one (p : P) (hlt : s.p_rpos < s.p_wpos) :
    dev_stdin_read_loop p 1 [] s = (some [s.stdin_buffer (s.p_rpos % STDIN_BUFSIZE)],
      { s with
        p_rpos := s.p_rpos + 1
        taken := s.taken ++ [s.stdin_buffer (s.p_rpos % STDIN_BUFSIZE)] }) := by
  unfold dev_stdin_read_loop
  rw [if_pos hlt]
  rfl

/-- Some characters `c`, one after another, from the beginning on. -/
theorem arrivals {c : UInt8} (hc : c ≠ 0) (s₀ : Stdin P) : ∀ n, n ≤ STDIN_BUFSIZE →
    ∃ s : Stdin P, StdinRun (fun _ _ => True) s ∧ StdinOk s ∧ s.p_rpos = 0 ∧ s.p_wpos = n ∧
      s.taken = [] ∧ s.accepted = List.replicate n c ∧ ∀ p, s.waits p = none := by
  intro n
  induction n with
  | zero =>
      intro _
      exact ⟨_, .init s₀, StdinOk.of_run (.init s₀), rfl, rfl, rfl, rfl, fun _ => rfl⟩
  | succ n ih =>
      intro hn
      obtain ⟨s, hrun, hok, hr, hw, ht, hacc, hwait⟩ := ih (by omega)
      have hroom : ¬ Full s := by
        unfold Full
        omega
      obtain ⟨-, hacc', hw'⟩ := unread_write_room hok hc hroom
      obtain ⟨hr', ht'⟩ := write_frame s c
      refine ⟨_, hrun.step (.arrive c) trivial trivial, hok.write fun hfull => absurd hfull hroom,
        hr'.trans hr, ?_, ht'.trans ht, ?_, fun p => ?_⟩
      · exact hw'.trans (by rw [hw])
      · rw [List.replicate_succ', ← hacc]
        exact hacc'
      · exact waits_write s c p (hwait p)

/-- 4096 times `a`, then `b`, which is dropped, and a read of one character: it reads `b`. -/
theorem stdin_not_fifo : ∃ s : Stdin Nat, StdinRun (fun _ _ => True) s ∧
    s.accepted = List.replicate 4096 97 ∧ s.taken = [98] ∧ ¬ s.taken <+: s.accepted := by
  obtain ⟨s, hrun, hok, hr, hw, ht, hacc, hwait⟩ := arrivals (P := Nat) (c := 97) (by decide)
    ⟨fun _ => 0, 0, 0, [], fun _ => none, [], []⟩ STDIN_BUFSIZE (Nat.le_refl _)
  have hfull : Full s := by
    unfold Full
    omega
  obtain ⟨hun, hacc', hw'⟩ := unread_write_full (c := 98) (by decide) hfull
  obtain ⟨hr', ht'⟩ := write_frame s 98
  have hwait' := waits_write s 98 5 (hwait 5)
  have hrun' : StdinRun (fun _ _ => True) (s.dev_stdin_write 98) :=
    hrun.step (.arrive 98) trivial trivial
  have hlt : (s.dev_stdin_write 98).p_rpos < (s.dev_stdin_write 98).p_wpos := by
    rw [hr', hw', hr, hw]
    decide
  -- the oldest character is now `b`
  have hb : (s.dev_stdin_write 98).stdin_buffer
      ((s.dev_stdin_write 98).p_rpos % STDIN_BUFSIZE) = 98 := by
    rw [unread, RingBuffer.contents_pop hlt] at hun
    exact (List.cons.inj hun).1
  have htaken : (StdinOp.run (s.dev_stdin_write 98) (.read 5 1)).2.taken = [98] := by
    rw [StdinOp.run, read_one 5 hlt, hb, ht', ht]
    rfl
  have haccepted : (StdinOp.run (s.dev_stdin_write 98) (.read 5 1)).2.accepted =
      List.replicate 4096 97 := by
    rw [StdinOp.run, read_one 5 hlt]
    exact hacc'.trans hacc
  refine ⟨_, hrun'.step (.read 5 1) hwait' trivial, haccepted, htaken, ?_⟩
  rw [haccepted, htaken]
  intro hprefix
  have hmem : (98 : UInt8) ∈ List.replicate 4096 97 := hprefix.subset (List.mem_singleton_self _)
  exact absurd (List.eq_of_mem_replicate hmem) (by decide)

end Ucore.Proofs.Fs
