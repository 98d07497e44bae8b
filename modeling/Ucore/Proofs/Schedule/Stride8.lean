import Ucore.Schedule.Stride8

/-!
# `Ucore.Proofs.Schedule.Stride8`: the first pick divides by zero

A process has the priority zero until it calls `lab6_set_priority` itself. It can only do that when
it runs, and it runs only when it has been picked. So the first pick of every run divides by zero
(`stride8_divisors`). What a pick adds is at most `BIG_STRIDE` exactly when the divisor is not zero
(`quotient_le_iff`).

The model logs each pick with the priority it divided by, what it added, and whether the process had
called `lab6_set_priority` before. `PicksOk` ties the three together: a priority that is not zero
has been set by the process itself, since `alloc_proc` writes zero and `lab6_set_priority` writes no
zero; and the pick at the bottom of the log was of a process that had not called it. A process other
than `idleproc` runs only with a pick behind it, so whoever calls `lab6_set_priority` comes after
that one.

The processor does not trap on a division by zero: `divuw` gives all bits set. So the kernel goes
on, with a stride that moves down by one.
-/

set_option autoImplicit false
set_option linter.unusedSectionVars false

namespace Ucore.Proofs.Schedule

open Ucore.Lib Ucore.Schedule Ucore.Schedule.Stride8

variable {P : Type} [DecidableEq P] {s s' : Stride8 P} {p idleproc : P}

/-- The quotient is at most `BIG_STRIDE` when the divisor is not zero. -/
theorem quotient_le_iff (divisor : BitVec 32) :
    (quotient divisor).toNat ≤ Stride8.BIG_STRIDE.toNat ↔ divisor ≠ 0 := by
  unfold quotient BitVec.smtUDiv
  by_cases hzero : divisor = 0
  · rw [if_pos hzero]
    simp only [hzero, ne_eq, not_true, iff_false]
    decide
  · rw [if_neg hzero]
    simp only [hzero, ne_eq, not_false_iff, iff_true]
    exact Nat.div_le_self _ _

/-- What the pick has done was right: no division by zero, and at most `BIG_STRIDE` added. -/
def GoodPick (e : Pick P) : Prop := e.divisor ≠ 0 ∧ e.added.toNat ≤ Stride8.BIG_STRIDE.toNat

/-- The priorities that are not zero have been set by the processes themselves, and the first pick
was of a process that had not set its own. -/
structure PicksOk (idleproc : P) (s : Stride8 P) : Prop where
  priority : ∀ p, s.lab6_priority p ≠ 0 ↔ s.called p = true
  fresh : s.picks = [] → s.current = idleproc ∧ ∀ p, s.called p = false
  history : ∀ e ∈ s.picks, GoodPick e ↔ e.called = true
  first : s.picks ≠ [] → ∃ e ∈ s.picks, e.called = false

namespace PicksOk

/-- The steps that neither pick, nor run another process, nor write a priority. -/
theorem congr (h : PicksOk idleproc s) (hpriority : s'.lab6_priority = s.lab6_priority)
    (hcalled : s'.called = s.called) (hpicks : s'.picks = s.picks)
    (hcurrent : s'.current = s.current) : PicksOk idleproc s' := by
  obtain ⟨hp, hf, hh, hl⟩ := h
  rw [← hpriority, ← hcalled] at hp
  rw [← hpicks, ← hcurrent, ← hcalled] at hf
  rw [← hpicks] at hh hl
  exact ⟨hp, hf, hh, hl⟩

/-- Putting a process into the queue keeps the invariant. -/
theorem enqueue (h : PicksOk idleproc s) (proc : P) : PicksOk idleproc (s.stride_enqueue proc) :=
  h.congr rfl rfl rfl rfl

/-- `sched_class_enqueue` keeps the invariant. -/
theorem class_enqueue (h : PicksOk idleproc s) (proc : P) :
    PicksOk idleproc (s.sched_class_enqueue idleproc proc) := by
  unfold sched_class_enqueue
  split
  · exact h.enqueue proc
  · exact h

/-- A wake-up keeps the invariant. -/
theorem wakeup (h : PicksOk idleproc s) {proc : P}
    (hok : s.wakeup_proc idleproc proc = .ok s') : PicksOk idleproc s' := by
  unfold wakeup_proc at hok
  by_cases hzombie : s.state proc = .zombie
  · rw [if_pos hzombie] at hok
    cases hok
  · rw [if_neg hzombie] at hok
    by_cases hrun : s.state proc ≠ .runnable
    · rw [if_pos hrun] at hok
      have hset : PicksOk idleproc { s with state := Function.update s.state proc .runnable } :=
        h.congr rfl rfl rfl rfl
      by_cases hcur : proc ≠ s.current
      · rw [if_pos hcur] at hok
        obtain rfl := Except.ok.inj hok
        exact hset.class_enqueue proc
      · rw [if_neg hcur] at hok
        obtain rfl := Except.ok.inj hok
        exact hset
    · rw [if_neg hrun] at hok
      obtain rfl := Except.ok.inj hok
      exact h

/-- A new process has the priority zero and has not called `lab6_set_priority`. -/
theorem alloc (h : PicksOk idleproc s) (proc : P) : PicksOk idleproc (s.alloc_proc proc) where
  priority := fun p => by
    simp only [alloc_proc]
    by_cases hp : p = proc
    · simp [hp]
    · rw [Function.update_of_ne hp, Function.update_of_ne hp]
      exact h.priority p
  fresh := fun hnil => by
    obtain ⟨hcur, hcalled⟩ := h.fresh hnil
    refine ⟨hcur, fun p => ?_⟩
    simp only [alloc_proc]
    by_cases hp : p = proc
    · simp [hp]
    · simp [hp, hcalled p]
  history := h.history
  first := h.first

/-- A pick is good when the process has called `lab6_set_priority`, and the first one is not. -/
theorem pick (h : PicksOk idleproc s) (hok : s.pickNext idleproc = .ok s') :
    PicksOk idleproc s' := by
  unfold pickNext stride_pick_next at hok
  cases hroot : s.lab6_run_pool.root with
  | none =>
      rw [hroot] at hok
      obtain rfl := Except.ok.inj hok
      exact ⟨h.priority, fun hnil => ⟨rfl, (h.fresh hnil).2⟩, h.history, h.first⟩
  | some p =>
      rw [hroot] at hok
      obtain ⟨t, hdeq, hok⟩ := Halt.bind_eq_ok.mp hok
      obtain rfl := Except.ok.inj hok
      unfold stride_dequeue at hdeq
      split at hdeq
      · obtain rfl := Except.ok.inj hdeq
        refine ⟨h.priority, fun hnil => (List.cons_ne_nil _ _ hnil).elim, fun e he => ?_,
          fun _ => ?_⟩
        · rcases List.mem_cons.mp he with rfl | he
          · unfold GoodPick
            rw [quotient_le_iff, and_self]
            exact h.priority p
          · exact h.history e he
        · by_cases hnil : s.picks = []
          · exact ⟨_, List.mem_cons_self, (h.fresh hnil).2 p⟩
          · obtain ⟨e, he, hcalled⟩ := h.first hnil
            exact ⟨e, List.mem_cons_of_mem _ he, hcalled⟩
      · cases hdeq

/-- `schedule` logs its pick with the priority of the process and keeps the invariant. -/
theorem schedule (h : PicksOk idleproc s) (hok : s.schedule idleproc = .ok s') :
    PicksOk idleproc s' := by
  have hback : PicksOk idleproc (s.putBack idleproc) := by
    have hset : PicksOk idleproc
        { s with need_resched := Function.update s.need_resched s.current false } :=
      h.congr rfl rfl rfl rfl
    unfold putBack
    dsimp only
    split
    · exact hset.class_enqueue s.current
    · exact hset
  exact hback.pick hok

/-- The current process has called `lab6_set_priority`. -/
theorem setPriority (h : PicksOk idleproc s) (hcur : s.current ≠ idleproc) (priority : BitVec 32) :
    PicksOk idleproc (s.lab6_set_priority priority) where
  priority := fun p => by
    simp only [lab6_set_priority]
    by_cases hp : p = s.current
    · subst hp
      rw [Function.update_self, Function.update_self]
      by_cases hzero : priority = 0
      · rw [if_pos hzero]
        simp
      · rw [if_neg hzero]
        exact iff_of_true hzero rfl
    · rw [Function.update_of_ne hp, Function.update_of_ne hp]
      exact h.priority p
  fresh := fun hnil => absurd (h.fresh hnil).1 hcur
  history := h.history
  first := h.first

/-- A tick keeps the invariant. -/
theorem class_tick (h : PicksOk idleproc s) (proc : P) :
    PicksOk idleproc (s.sched_class_proc_tick idleproc proc) := by
  unfold sched_class_proc_tick stride_proc_tick
  dsimp only
  split
  · split
    · split <;> exact h.congr rfl rfl rfl rfl
    · split <;> exact h.congr rfl rfl rfl rfl
  · exact h.congr rfl rfl rfl rfl

/-- Every step keeps it. -/
theorem step (h : PicksOk idleproc s) {op : Stride8Op P} (hen : op.Enabled idleproc s)
    (hok : op.run idleproc s = .ok s') : PicksOk idleproc s' := by
  cases op with
  | fork proc => exact (h.alloc proc).wakeup hok
  | wake proc => exact h.wakeup hok
  | sleep =>
      have hset : PicksOk idleproc { s with state := Function.update s.state s.current .sleeping } :=
        h.congr rfl rfl rfl rfl
      exact hset.schedule hok
  | exit =>
      have hset : PicksOk idleproc { s with state := Function.update s.state s.current .zombie } :=
        h.congr rfl rfl rfl rfl
      exact hset.schedule hok
  | yield =>
      obtain rfl := Except.ok.inj hok
      exact h.congr rfl rfl rfl rfl
  | schedule => exact h.schedule hok
  | setPriority priority =>
      obtain rfl := Except.ok.inj hok
      exact h.setPriority hen priority
  | tick =>
      obtain rfl := Except.ok.inj hok
      exact h.class_tick s.current

end PicksOk

/-- Nobody has been picked at boot. -/
theorem picksOk_boot (s : Stride8 P) (max_time_slice : Int) :
    PicksOk idleproc (s.boot idleproc max_time_slice) where
  priority := fun p => by simp [boot]
  fresh := fun _ => ⟨rfl, fun _ => rfl⟩
  history := fun e he => by cases he
  first := fun hne => (hne rfl).elim

/-- The invariant holds in every state of a run. -/
theorem picksOk_of_run (h : Stride8Run idleproc s) : PicksOk idleproc s := by
  induction h with
  | init s₀ max_time_slice initproc _ hok =>
      exact ((picksOk_boot s₀ max_time_slice).alloc initproc).wakeup hok
  | step op _ hen hok ih => exact ih.step hen hok

/-- A pick divides by a number that is not zero, and adds at most `BIG_STRIDE`, exactly when the
process has called `lab6_set_priority` since it was created. The first pick of a run is of a
process that has not, so only in the runs without a pick all of them are good. -/
theorem stride8_divisors (h : Stride8Run idleproc s) :
    ((∀ e ∈ s.picks, GoodPick e) ↔ s.picks = []) ∧
      (∀ e ∈ s.picks, GoodPick e ↔ e.called = true) ∧
      ∀ p, s.lab6_run_pool.root = some p → (s.lab6_priority p ≠ 0 ↔ s.called p = true) := by
  have hok := picksOk_of_run h
  refine ⟨⟨fun hgood => ?_, fun hnil => ?_⟩, hok.history, fun p _ => hok.priority p⟩
  · by_contra hne
    obtain ⟨e, he, hcalled⟩ := hok.first hne
    rw [(hok.history e he).mp (hgood e he)] at hcalled
    cases hcalled
  · rw [hnil]
    intro e he
    cases he

/-- Any memory before `proc_init`. -/
def beforeInit8 : Stride8 Bool where
  state _ := .uninit
  need_resched _ := false
  time_slice _ := 0
  rq _ := false
  lab6_stride _ := 0
  lab6_priority _ := 0
  lab6_run_pool := .nil
  proc_num := 0
  max_time_slice := 0
  current := false
  called _ := false
  picks := []

/-- `initproc` is picked, sets its priority to 7 and is picked again. The first pick divides by zero,
and the second one by 7. -/
theorem stride8_divisors_setPriority :
    ∃ s, Stride8Run false s ∧ s.picks.map (fun e => (e.divisor, e.called)) = [(7, true), (0, false)] ∧
      ∃ e₁ e₂, s.picks = [e₂, e₁] ∧ ¬ GoodPick e₁ ∧ GoodPick e₂ := by
  have hboot : Stride8Run false _ := .init beforeInit8 20 true (by decide) rfl
  have hfirst : Stride8Run false _ := .step .schedule hboot trivial rfl
  have hset : Stride8Run false _ := .step (.setPriority 7) hfirst Bool.true_eq_false.mp rfl
  have hsecond : Stride8Run false _ := .step .schedule hset trivial rfl
  have hgood := (stride8_divisors hsecond).2.1
  refine ⟨_, hsecond, rfl, _, _, rfl, ?_, ?_⟩
  · rw [hgood _ (List.mem_cons_of_mem _ List.mem_cons_self)]
    exact Bool.false_ne_true
  · exact (hgood _ List.mem_cons_self).mpr rfl

/-- The first call of `schedule` picks `initproc` and divides by zero. -/
theorem stride8_divides_by_zero :
    ¬ ∀ (P : Type) (_ : DecidableEq P) (idleproc : P) (s : Stride8 P), Stride8Run idleproc s →
      ∀ e ∈ s.picks, GoodPick e := by
  intro hall
  have hrun : Stride8Run false _ := .init beforeInit8 20 true (by decide) rfl
  have hstep : Stride8Run false _ := .step .schedule hrun trivial rfl
  exact (hall Bool inferInstance false _ hstep _ List.mem_cons_self).1 rfl

end Ucore.Proofs.Schedule
