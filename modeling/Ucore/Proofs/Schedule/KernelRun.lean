import Ucore.Proofs.Schedule.Kernel

/-!
# `Ucore.Proofs.Schedule.KernelRun`: the run queue over a whole run

The calls that sleep, `do_fork`, `do_kill`, the semaphores and the timer tick keep `KernelOk`, and
with `do_exit` and `schedule` so does every run. What a call does to the process lists comes from
`Ucore.Proofs.Process.Run`.

A call that sleeps is two steps of a run. The first one is the call up to its `schedule()`, and
leaves the process in front of it. The second one is `resume`, when the process runs again: it goes
on behind the `schedule()` with what that call does there, or waits once more. Between the two any
other calls may come, of other processes, ticks and wake-ups by a driver among them.

`KernelOk.step` has a case for each operation and `kernelRun_ok` is the induction.

`run_queue_exact` reads four things off the invariant: the run list has exactly the runnable
processes that do not run, each once; `proc_num` counts them; what has been put in and has not been
taken out is in the queue, in this order; and no assertion of the scheduler fails.

`run_queue_exact_turns` is a run with three processes that fork, sleep, yield and are woken up, by a
timer and by a driver. It names the order of the dispatches and the queue in the end.
-/

set_option autoImplicit false
set_option linter.unusedSectionVars false

namespace Ucore.Proofs.Schedule

open Ucore.Lib Ucore.Libs Ucore.Process Ucore.Schedule Ucore.Proofs.Process

variable {P S : Type} [DecidableEq P] [DecidableEq S] {order queue : List P}
  {bucket : Nat → List P} {kids : P → List P} {k k' : Kernel P S} {p q : P}
  {idleproc initproc : P} {fuel : Nat}

/-! ### Going to sleep and coming back -/

/-- The current process goes to sleep in a call. -/
theorem KernelOk.setSleeping (h : KernelOk idleproc initproc k order bucket kids queue)
    (hidle : k.procs.current ≠ idleproc) (hfree : Free k) (wait_state : BitVec 32)
    (call : Blocking S) :
    KernelOk idleproc initproc (Schedule.setSleeping k wait_state call) order bucket kids
      queue := by
  have hstate : ∀ q, q ≠ k.procs.current →
      (Schedule.setSleeping k wait_state call).procs.state q = k.procs.state q :=
    fun q hq => Function.update_of_ne hq ..
  have hpc : ∀ q, q ≠ k.procs.current →
      (Schedule.setSleeping k wait_state call).pc q = k.pc q :=
    fun q hq => Function.update_of_ne hq ..
  have hsleeping : (Schedule.setSleeping k wait_state call).procs.state k.procs.current =
      .sleeping := Function.update_self ..
  have hblocked : (Schedule.setSleeping k wait_state call).pc k.procs.current = .blocked call :=
    Function.update_self ..
  -- Only the state and `wait_state` of the current process change, and the lists look at neither.
  have hprocs : ProcsOk idleproc (Schedule.setSleeping k wait_state call).procs order bucket
      kids := by
    refine h.procs.states rfl rfl rfl rfl rfl rfl rfl rfl ?_ ?_ ?_
    · intro q hq
      left
      by_cases hqc : q = k.procs.current
      · rw [hqc, hsleeping]
        simp
      · rwa [hstate q hqc]
    · rw [hstate idleproc (Ne.symm hidle)]
      exact h.procs.idle.2
    · intro q hq
      by_cases hqc : q = k.procs.current
      · exact Or.inl (hqc ▸ hsleeping)
      · rw [hstate q hqc]
        show _ ∨ Function.update k.procs.wait_state k.procs.current wait_state q = 0
        rw [Function.update_of_ne hqc]
        exact h.procs.wait q hq
  -- The current process is not in the run queue, so the queue stays exact.
  refine ⟨hprocs, h.queue.congr rfl rfl rfl fun q _ hqc => by rw [hstate q hqc], h.init_mem, ?_,
    h.current_mem, Or.inr (Or.inl ⟨call, hblocked⟩), ?_, ?_, ?_, h.timers_nodup, ?_, h.waits_nodup,
    ?_⟩
  · by_cases hic : initproc = k.procs.current
    · rw [hic, hsleeping]
      simp
    · rw [hstate initproc hic]
      exact h.init_state
  · intro q hq
    by_cases hqc : q = k.procs.current
    · rw [hqc, hsleeping, hblocked]
      simp
    · rw [hstate q hqc, hpc q hqc]
      exact h.leaving q hq
  · intro q hq hrun
    by_cases hqc : q = k.procs.current
    · rw [hqc, hblocked] at hrun
      cases hrun
    · rw [hpc q hqc] at hrun
      rw [hstate q hqc]
      exact h.running q hq hrun
  · rw [hpc idleproc (Ne.symm hidle)]
    exact h.idle
  · intro t ht
    rw [hpc t.key (hfree.timers t ht)]
    exact h.timers t ht
  · intro sem q hq
    rw [hpc q (fun e => hfree.waits sem (e ▸ hq))]
    exact h.waits sem q hq

/-- The current process leaves the call in which it has slept. -/
theorem KernelOk.returned (h : KernelOk idleproc initproc k order bucket kids queue)
    (hidle : k.procs.current ≠ idleproc) (hrunning : k.procs.state k.procs.current = .runnable)
    (hfree : Free k) :
    KernelOk idleproc initproc (Schedule.returned k) order bucket kids queue := by
  have hpc : ∀ q, q ≠ k.procs.current → (Schedule.returned k).pc q = k.pc q :=
    fun q hq => Function.update_of_ne hq ..
  have hrun : (Schedule.returned k).pc k.procs.current = .run := Function.update_self ..
  refine ⟨h.procs, ⟨h.queue.rq, h.queue.mem⟩, h.init_mem, h.init_state, h.current_mem,
    Or.inl hrunning, ?_, ?_, ?_, h.timers_nodup, ?_, h.waits_nodup, ?_⟩
  · intro q hq
    by_cases hqc : q = k.procs.current
    · rw [hqc, hrun]
      refine iff_of_false (by simp) ?_
      show k.procs.state k.procs.current ≠ .zombie
      rw [hrunning]
      simp
    · rw [hpc q hqc]
      exact h.leaving q hq
  · intro q hq hq'
    by_cases hqc : q = k.procs.current
    · rw [hqc]
      exact hrunning
    · rw [hpc q hqc] at hq'
      exact h.running q hq hq'
  · rw [hpc idleproc (Ne.symm hidle)]
    exact h.idle
  · intro t ht
    rw [hpc t.key (hfree.timers t ht)]
    exact h.timers t ht
  · intro sem q hq
    rw [hpc q (fun e => hfree.waits sem (e ▸ hq))]
    exact h.waits sem q hq

/-- A zombie that has been reaped. -/
theorem KernelOk.reaped (h : KernelOk idleproc initproc k order bucket kids queue) {procs : Procs P}
    {order' : List P} {bucket' : Nat → List P} {kids' : P → List P}
    (hprocs : ProcsOk idleproc procs order' bucket' kids')
    (hzombie : k.procs.state p = .zombie) (horder : ∀ x, x ∈ order' ↔ x ∈ order ∧ x ≠ p)
    (halloc : procs.allocated = k.procs.allocated.erase p) (hstate : procs.state = k.procs.state)
    (hcur : procs.current = k.procs.current)
    (hrunning : k.procs.state k.procs.current = .runnable) :
    KernelOk idleproc initproc { k with procs := procs } order' bucket' kids' queue := by
  have hmem : ∀ x, x ∈ procs.allocated ↔ x ≠ p ∧ x ∈ k.procs.allocated := by
    intro x
    rw [halloc, h.procs.nodup.mem_erase_iff]
  -- No other process is a zombie that somebody still points to.
  have hkeep : ∀ x, x ∈ k.procs.allocated → k.procs.state x ≠ .zombie → x ∈ procs.allocated := by
    intro x hx hz
    refine (hmem x).mpr ⟨?_, hx⟩
    rintro rfl
    exact hz hzombie
  have hqueue : QueueOk idleproc { k with procs := procs } queue := by
    refine ⟨h.queue.rq.shrink (fun q hq => ((hmem q).mp hq).2) fun q hq => ?_, fun q => ?_⟩
    · have hq' := (h.queue.mem q).mp hq
      refine hkeep q hq'.1 ?_
      rw [hq'.2.1]
      simp
    · rw [h.queue.mem]
      show _ ↔ q ∈ procs.allocated ∧ procs.state q = .runnable ∧ q ≠ procs.current ∧ q ≠ idleproc
      rw [hmem, hstate, hcur]
      constructor
      · rintro ⟨hq, hrun, hrest⟩
        refine ⟨⟨?_, hq⟩, hrun, hrest⟩
        rintro rfl
        rw [hzombie] at hrun
        cases hrun
      · rintro ⟨⟨-, hq⟩, hrest⟩
        exact ⟨hq, hrest⟩
  refine ⟨hprocs, hqueue, ?_, ?_, ?_, ?_, ?_, ?_, h.idle, h.timers_nodup, ?_, h.waits_nodup, ?_⟩
  · refine (horder initproc).mpr ⟨h.init_mem, ?_⟩
    rintro rfl
    exact h.init_state hzombie
  · show procs.state initproc ≠ .zombie
    rw [hstate]
    exact h.init_state
  · show procs.current ∈ procs.allocated
    rw [hcur]
    refine hkeep _ h.current_mem ?_
    rw [hrunning]
    simp
  · left
    show procs.state procs.current = .runnable
    rw [hcur, hstate]
    exact hrunning
  · intro q hq
    show k.pc q = .leaving ↔ procs.state q = .zombie
    rw [hstate]
    exact h.leaving q ((hmem q).mp hq).2
  · intro q hq hrun
    show procs.state q = .runnable
    rw [hstate]
    exact h.running q ((hmem q).mp hq).2 hrun
  · intro t ht
    obtain ⟨hproc, hkey, hin⟩ := h.timers t ht
    exact ⟨hproc, hkeep t.key hkey (h.not_zombie hkey hin), hin⟩
  · intro sem q hq
    obtain ⟨hq, hin⟩ := h.waits sem q hq
    exact ⟨hkeep q hq (h.not_zombie hq hin), hin⟩

/-- `do_wait` up to its return or its `schedule`. -/
theorem KernelOk.wait (h : KernelOk idleproc initproc k order bucket kids queue)
    (hidle : k.procs.current ≠ idleproc) (hrunning : k.procs.state k.procs.current = .runnable)
    (hfree : Free k) (pid : Int) :
    Ends (Schedule.wait idleproc initproc fuel k pid) fun r => Ok idleproc initproc r.2 := by
  unfold Schedule.wait
  refine Ends.bind (Ends.lift _) ?_
  rintro ⟨found, haskid⟩ hsearch
  cases found with
  | some p =>
      obtain ⟨hporder, hpar, hz⟩ := h.procs.waitSearch h.current_mem hsearch
      dsimp only
      split
      · trivial
      refine Ends.bind (Ends.lift _) ?_
      intro procs hremove
      obtain ⟨order', bucket', kids', hok, hmem, halloc, hstate, hcur, -⟩ :=
        h.procs.reap hporder hz hpar hremove
      have hreaped : KernelOk idleproc initproc { k with procs := freeProc procs p } order' bucket'
          kids' queue := by
        refine h.reaped hok hz hmem ?_ hstate hcur hrunning
        show procs.allocated.erase p = _
        rw [halloc]
      have hcur' : (freeProc procs p).current = k.procs.current := hcur
      refine ⟨order', bucket', kids', queue, hreaped.returned ?_ ?_ ⟨?_, ?_⟩⟩
      · exact hcur'.trans_ne hidle
      · show procs.state procs.current = .runnable
        rw [hcur, hstate]
        exact hrunning
      · intro t ht
        rw [show ({ k with procs := freeProc procs p } : Kernel P S).procs.current = _ from hcur']
        exact hfree.timers t ht
      · intro sem
        rw [show ({ k with procs := freeProc procs p } : Kernel P S).procs.current = _ from hcur']
        exact hfree.waits sem
  | none =>
      cases haskid with
      | true => exact ⟨order, bucket, kids, queue, h.setSleeping hidle hfree _ _⟩
      | false => exact ⟨order, bucket, kids, queue, h.returned hidle hrunning hfree⟩

/-! ### Timers -/

section
variable {timer t : Timer P P} {timers : List (Timer P P)}

/-- A timer that `add_timer` leaves is the new one or one of the others, with other ticks. -/
theorem mem_add_timer_loop : ∀ {timer : Timer P P}, t ∈ add_timer_loop timer timers →
    ∃ t' ∈ timer :: timers, t.key = t'.key ∧ t.proc = t'.proc := by
  induction timers with
  | nil =>
      intro timer ht
      exact ⟨t, ht, rfl, rfl⟩
  | cons next rest ih =>
      intro timer ht
      unfold add_timer_loop at ht
      split at ht
      · rcases List.mem_cons.mp ht with rfl | ht
        · exact ⟨t, by simp, rfl, rfl⟩
        · rcases List.mem_cons.mp ht with rfl | ht
          · exact ⟨next, by simp, rfl, rfl⟩
          · exact ⟨t, by simp [ht], rfl, rfl⟩
      · rcases List.mem_cons.mp ht with rfl | ht
        · exact ⟨t, by simp, rfl, rfl⟩
        · obtain ⟨t', ht', hkey, hproc⟩ := ih ht
          rcases List.mem_cons.mp ht' with rfl | ht'
          · exact ⟨timer, by simp, hkey, hproc⟩
          · exact ⟨t', by simp [ht'], hkey, hproc⟩

/-- `del_timer` adds no timer. -/
theorem mem_del_timer {key : P} (ht : t ∈ del_timer key timers) :
    ∃ t' ∈ timers, t.key = t'.key ∧ t.proc = t'.proc := by
  induction timers with
  | nil => cases ht
  | cons timer rest ih =>
      unfold del_timer at ht
      split at ht
      · cases rest with
        | nil => cases ht
        | cons next rest =>
            simp only [del_timer_next] at ht
            split at ht
            · rcases List.mem_cons.mp ht with rfl | ht
              · exact ⟨next, by simp, rfl, rfl⟩
              · exact ⟨t, by simp [ht], rfl, rfl⟩
            · exact ⟨t, List.mem_cons_of_mem timer ht, rfl, rfl⟩
      · rcases List.mem_cons.mp ht with rfl | ht
        · exact ⟨t, by simp, rfl, rfl⟩
        · obtain ⟨t', ht', hsame⟩ := ih ht
          exact ⟨t', List.mem_cons_of_mem timer ht', hsame⟩

/-- A tick takes timers off the list. -/
theorem run_timer_list_mem {timers' expired : List (Timer P P)}
    (h : run_timer_list timers = .ok (timers', expired)) :
    ((expired ++ timers').map Timer.key) = timers.map Timer.key ∧
      ∀ t ∈ expired ++ timers', ∃ t' ∈ timers, t.key = t'.key ∧ t.proc = t'.proc := by
  cases timers with
  | nil =>
      cases h
      exact ⟨rfl, by simp⟩
  | cons timer rest =>
      simp only [run_timer_list] at h
      split at h
      · cases h
      have happend := run_timer_list_loop_append
        ({ timer with expires := timer.expires - 1 } :: rest)
      rw [Except.ok.inj h] at happend
      have hsplit : expired ++ timers' = { timer with expires := timer.expires - 1 } :: rest :=
        happend
      rw [hsplit]
      refine ⟨rfl, ?_⟩
      intro t ht
      rcases List.mem_cons.mp ht with rfl | ht
      · exact ⟨timer, by simp, rfl, rfl⟩
      · exact ⟨t, by simp [ht], rfl, rfl⟩

end

/-- Another timer list. -/
theorem KernelOk.setTimers (h : KernelOk idleproc initproc k order bucket kids queue)
    {timers : List (Timer P P)} (hnodup : (timers.map Timer.key).Nodup)
    (hmem : ∀ t ∈ timers, t.proc = t.key ∧ t.key ∈ k.procs.allocated ∧
      Pc.In (k.pc t.key) .sleep) :
    KernelOk idleproc initproc { k with timers := timers } order bucket kids queue :=
  ⟨h.procs, ⟨h.queue.rq, h.queue.mem⟩, h.init_mem, h.init_state, h.current_mem, h.current,
    h.leaving, h.running, h.idle, hnodup, hmem, h.waits_nodup, h.waits⟩

/-- `do_sleep` up to its `schedule`. -/
theorem KernelOk.sleep (h : KernelOk idleproc initproc k order bucket kids queue)
    (hidle : k.procs.current ≠ idleproc) (hfree : Free k) (time : Fin (2 ^ 32)) :
    Ends (Schedule.sleep k time) (Ok idleproc initproc) := by
  unfold Schedule.sleep
  split
  · exact ⟨order, bucket, kids, queue, h⟩
  have hsleep := h.setSleeping hidle hfree WT_TIMER .sleep
  refine Ends.bind (Ends.lift _) ?_
  intro timers hadd
  obtain ⟨-, hnew, rfl⟩ := add_timer_eq_ok hadd
  refine ⟨order, bucket, kids, queue, hsleep.setTimers ?_ ?_⟩
  · exact (keys_add_timer_loop _ _).nodup_iff.mpr (List.nodup_cons.mpr ⟨hnew, h.timers_nodup⟩)
  · intro t ht
    obtain ⟨t', ht', hkey, hproc⟩ := mem_add_timer_loop ht
    rw [hkey, hproc]
    rcases List.mem_cons.mp ht' with rfl | ht'
    · exact ⟨rfl, h.current_mem, Or.inl (Function.update_self ..)⟩
    · exact hsleep.timers t' ht'

/-- The loop of `run_timer_list`: the processes with an expired timer are in `do_sleep`. -/
theorem KernelOk.wakeExpired : ∀ {expired : List (Timer P P)} {k : Kernel P S} {queue : List P},
    KernelOk idleproc initproc k order bucket kids queue →
    (∀ t ∈ expired, t.proc ∈ k.procs.allocated ∧ Pc.In (k.pc t.proc) .sleep) →
    Ends (Schedule.wakeExpired idleproc expired k) fun k' =>
      ∃ queue', KernelOk idleproc initproc k' order bucket kids queue' := by
  intro expired
  induction expired with
  | nil =>
      intro k queue h _
      exact ⟨queue, h⟩
  | cons timer rest ih =>
      intro k queue h hin
      obtain ⟨hproc, hpc⟩ := hin timer List.mem_cons_self
      unfold Schedule.wakeExpired
      split
      · trivial
      refine (h.wakeup hproc (h.not_zombie hproc hpc)).bind ?_
      rintro k₁ ⟨hsame, halloc, -, queue₁, h₁⟩
      have hpc₁ : k₁.pc = k.pc := by rw [hsame]
      refine ih h₁ fun t ht => ?_
      rw [halloc, hpc₁]
      exact hin t (List.mem_cons_of_mem timer ht)

/-- `sched_class_proc_tick` of the current process. -/
theorem KernelOk.proc_tick (h : KernelOk idleproc initproc k order bucket kids queue) :
    KernelOk idleproc initproc (schedClassProcTick idleproc k k.procs.current) order bucket kids
      queue := by
  have hcurq : k.procs.current ∉ queue := fun hc => ((h.queue.mem _).mp hc).2.2.1 rfl
  have hprocs : ∀ need_resched : P → Bool,
      ProcsOk idleproc { k.procs with need_resched := need_resched } order bucket kids :=
    fun _ => h.procs.states rfl rfl rfl rfl rfl rfl rfl rfl (fun _ hq => Or.inl hq) h.procs.idle.2
      h.procs.wait
  unfold schedClassProcTick
  split
  · have hrq := h.queue.rq.tick hcurq
    dsimp only
    split
    · refine h.states ?_ ⟨?_, h.queue.mem⟩ ?_ ?_ ?_ fun _ => Or.inl rfl
      · exact hprocs _
      · exact hrq
      all_goals rfl
    · refine h.states ?_ ⟨?_, h.queue.mem⟩ ?_ ?_ ?_ fun _ => Or.inl rfl
      · exact h.procs
      · exact hrq
      all_goals rfl
  · refine h.states ?_ ⟨?_, h.queue.mem⟩ ?_ ?_ ?_ fun _ => Or.inl rfl
    · exact hprocs _
    · exact h.queue.rq
    all_goals rfl

/-- A timer interrupt. -/
theorem KernelOk.tick (h : KernelOk idleproc initproc k order bucket kids queue) :
    Ends (Schedule.tick idleproc k) (Ok idleproc initproc) := by
  unfold Schedule.tick
  refine Ends.bind (Ends.lift _) ?_
  rintro ⟨timers, expired⟩ hrun
  obtain ⟨hkeys, hmem⟩ := run_timer_list_mem hrun
  have hfacts : ∀ t ∈ expired ++ timers, t.proc = t.key ∧ t.key ∈ k.procs.allocated ∧
      Pc.In (k.pc t.key) .sleep := by
    intro t ht
    obtain ⟨t', ht', hkey, hproc⟩ := hmem t ht
    rw [hkey, hproc]
    exact h.timers t' ht'
  have hnodup := h.timers_nodup
  rw [← hkeys, List.map_append] at hnodup
  have hrest := h.setTimers (List.nodup_append.mp hnodup).2.1
    (fun t ht => hfacts t (List.mem_append_right _ ht))
  refine (hrest.wakeExpired (fun t (ht : t ∈ expired) => ?_)).bind ?_
  · obtain ⟨hproc, hkey, hin⟩ := hfacts t (List.mem_append_left _ ht)
    rw [hproc]
    exact ⟨hkey, hin⟩
  · rintro k₁ ⟨queue₁, h₁⟩
    exact ⟨order, bucket, kids, queue₁, h₁.proc_tick⟩

/-! ### Semaphores -/

/-- Other wait queues. -/
theorem KernelOk.setWaits (h : KernelOk idleproc initproc k order bucket kids queue)
    {wait_queue : S → List P} {wakeup_flags : P → BitVec 32} {value : S → BitVec 32}
    (hnodup : ∀ sem, (wait_queue sem).Nodup)
    (hmem : ∀ sem, ∀ p ∈ wait_queue sem, p ∈ k.procs.allocated ∧ Pc.In (k.pc p) (.down sem)) :
    KernelOk idleproc initproc
      { k with value := value, wait_queue := wait_queue, wakeup_flags := wakeup_flags } order
      bucket kids queue :=
  ⟨h.procs, ⟨h.queue.rq, h.queue.mem⟩, h.init_mem, h.init_state, h.current_mem, h.current,
    h.leaving, h.running, h.idle, h.timers_nodup, h.timers, hnodup, hmem⟩

/-- `up` keeps the invariant. -/
theorem KernelOk.semUp (h : KernelOk idleproc initproc k order bucket kids queue) (sem : S) :
    Ends (Schedule.semUp idleproc k sem) (Ok idleproc initproc) := by
  unfold Schedule.semUp
  cases hq : k.wait_queue sem with
  | nil => exact ⟨order, bucket, kids, queue, h.setWaits h.waits_nodup h.waits⟩
  | cons proc rest =>
      dsimp only
      split
      · trivial
      have hnodup := h.waits_nodup sem
      have hwaits := h.waits sem
      rw [hq] at hnodup hwaits
      obtain ⟨hproc, hpc⟩ := hwaits proc List.mem_cons_self
      have hrest : KernelOk idleproc initproc { k with
          wait_queue := Function.update k.wait_queue sem rest
          wakeup_flags := Function.update k.wakeup_flags proc WT_KSEM } order bucket kids
          queue := by
        refine h.setWaits ?_ ?_
        · intro sem'
          by_cases hs : sem' = sem
          · rw [hs, Function.update_self]
            exact (List.nodup_cons.mp hnodup).2
          · rw [Function.update_of_ne hs]
            exact h.waits_nodup sem'
        · intro sem' q hq'
          by_cases hs : sem' = sem
          · rw [hs, Function.update_self] at hq'
            rw [hs]
            exact hwaits q (List.mem_cons_of_mem proc hq')
          · rw [Function.update_of_ne hs] at hq'
            exact h.waits sem' q hq'
      refine (hrest.wakeup hproc (h.not_zombie hproc hpc)).mono ?_
      rintro k₁ ⟨-, -, -, queue₁, h₁⟩
      exact ⟨order, bucket, kids, queue₁, h₁⟩

/-- `down` keeps the invariant. -/
theorem KernelOk.semDown (h : KernelOk idleproc initproc k order bucket kids queue)
    (hidle : k.procs.current ≠ idleproc) (hfree : Free k) (sem : S) :
    Ok idleproc initproc (Schedule.semDown k sem) := by
  unfold Schedule.semDown
  split
  · exact ⟨order, bucket, kids, queue, h.setWaits h.waits_nodup h.waits⟩
  have hsleep := h.setSleeping hidle hfree WT_KSEM (.down sem)
  refine ⟨order, bucket, kids, queue, hsleep.setWaits ?_ ?_⟩
  · intro sem'
    by_cases hs : sem' = sem
    · rw [hs, Function.update_self]
      have hperm := List.perm_append_singleton k.procs.current (k.wait_queue sem)
      exact hperm.nodup_iff.mpr (List.nodup_cons.mpr ⟨hfree.waits sem, h.waits_nodup sem⟩)
    · rw [Function.update_of_ne hs]
      exact h.waits_nodup sem'
  · intro sem' q hq
    by_cases hs : sem' = sem
    · rw [hs, Function.update_self] at hq
      rw [hs]
      rcases List.mem_append.mp hq with hq | hq
      · exact hsleep.waits sem q hq
      · rw [List.mem_singleton.mp hq]
        exact ⟨h.current_mem, Or.inl (Function.update_self ..)⟩
    · rw [Function.update_of_ne hs] at hq
      exact hsleep.waits sem' q hq

/-- `down` behind its `schedule`. -/
theorem KernelOk.semDownEnd (h : KernelOk idleproc initproc k order bucket kids queue)
    (hidle : k.procs.current ≠ idleproc) {sem : S}
    (hpc : k.pc k.procs.current = .resumed (.down sem)) :
    Ends (Schedule.semDownEnd k sem) (Ok idleproc initproc) := by
  have hrunning := h.current_runnable (by rw [hpc]; simp) (by rw [hpc]; simp)
  unfold Schedule.semDownEnd
  dsimp only
  have hgone : ∀ sem', k.procs.current ∉
      Function.update k.wait_queue sem ((k.wait_queue sem).erase k.procs.current) sem' := by
    intro sem' hmem
    by_cases hs : sem' = sem
    · rw [hs, Function.update_self, (h.waits_nodup sem).mem_erase_iff] at hmem
      exact hmem.1 rfl
    · rw [Function.update_of_ne hs] at hmem
      have hin := (h.waits sem' _ hmem).2
      rw [hpc] at hin
      rcases hin with hin | hin
      · cases hin
      · cases hin
        exact hs rfl
  have hok : KernelOk idleproc initproc { k with
      wait_queue := Function.update k.wait_queue sem
        ((k.wait_queue sem).erase k.procs.current) } order bucket kids queue := by
    refine h.setWaits ?_ ?_
    · intro sem'
      by_cases hs : sem' = sem
      · rw [hs, Function.update_self]
        exact (h.waits_nodup sem).erase _
      · rw [Function.update_of_ne hs]
        exact h.waits_nodup sem'
    · intro sem' q hq
      by_cases hs : sem' = sem
      · rw [hs, Function.update_self] at hq
        rw [hs]
        exact h.waits sem q (List.mem_of_mem_erase hq)
      · rw [Function.update_of_ne hs] at hq
        exact h.waits sem' q hq
  have htimers : ∀ t ∈ k.timers, t.key ≠ k.procs.current := by
    intro t ht hkey
    have hin := (h.timers t ht).2.2
    rw [hkey, hpc] at hin
    rcases hin with hin | hin <;> cases hin
  split
  · exact ⟨order, bucket, kids, queue, hok.returned hidle hrunning ⟨htimers, hgone⟩⟩
  · trivial

/-! ### `do_fork` and `do_kill` -/

/-- `set_links` leaves the states and the structs. -/
theorem setLinks_frame {s s' : Procs P} (hrun : setLinks s p = .ok s') :
    s'.state = s.state ∧ s'.current = s.current ∧ s'.allocated = s.allocated := by
  unfold setLinks at hrun
  split at hrun
  · cases hrun
  · cases hrun
    exact ⟨rfl, rfl, rfl⟩

/-- A struct that `kmalloc` has just given is in no queue. -/
theorem QueueOk.add (h : QueueOk idleproc k queue) (hp : p ∉ k.procs.allocated)
    {procs : Procs P} {pc : P → Pc S} (hcur : procs.current = k.procs.current)
    (halloc : procs.allocated = p :: k.procs.allocated)
    (hstate : procs.state = Function.update k.procs.state p .uninit) :
    QueueOk idleproc { k with procs := procs, rq := rrAlloc k.rq p, pc := pc } queue := by
  refine ⟨?_, fun q => ?_⟩
  · show RqOk (rrAlloc k.rq p) procs.allocated queue
    rw [halloc]
    exact h.rq.add hp
  · show _ ↔ q ∈ procs.allocated ∧ procs.state q = .runnable ∧ q ≠ procs.current ∧ q ≠ idleproc
    rw [h.mem, halloc, hcur, hstate, List.mem_cons]
    by_cases hqp : q = p
    · subst hqp
      rw [Function.update_self]
      exact iff_of_false (fun hq => hp hq.1) (by simp)
    · rw [Function.update_of_ne hqp, or_iff_right hqp]

/-- `do_fork` with memory for the files does to the processes what it does in lab 5. -/
theorem QueueOk.fork (h : QueueOk idleproc k queue) {alloc : Option P} {kstack mm : Bool}
    (hfresh : ∀ proc, alloc = some proc → proc ∉ k.procs.allocated) :
    Ends (Schedule.fork idleproc fuel k alloc kstack mm true) fun r =>
      doFork fuel k.procs alloc kstack mm = .ok (r.1, r.2.procs) ∧
        r.2.timers = k.timers ∧ r.2.wait_queue = k.wait_queue ∧
        (∀ q ∈ k.procs.allocated, r.2.pc q = k.pc q) ∧
        (∀ q ∈ r.2.procs.allocated, q ∉ k.procs.allocated → r.2.pc q = .run) ∧
        ∃ queue', QueueOk idleproc r.2 queue' := by
  -- Both functions make the same tests in the same order, so their branches are taken together.
  unfold Schedule.fork doFork
  by_cases hmax : MAX_PROCESS ≤ k.procs.nr_process
  · rw [if_pos hmax, if_pos hmax]
    exact ⟨rfl, rfl, rfl, fun _ _ => rfl, fun q hq hq' => absurd hq hq', queue, h⟩
  rw [if_neg hmax, if_neg hmax]
  cases alloc with
  -- `alloc_proc` has no memory.
  | none => exact ⟨rfl, rfl, rfl, fun _ _ => rfl, fun q hq hq' => absurd hq hq', queue, h⟩
  | some proc =>
      have hp := hfresh proc rfl
      have hpc : ∀ q ∈ k.procs.allocated, Function.update k.pc proc .run q = k.pc q := by
        intro q hq
        exact Function.update_of_ne (fun e : q = proc => hp (e ▸ hq)) ..
      dsimp only
      split
      · trivial
      by_cases hmem : ¬ (kstack ∧ mm)
      -- No memory for the kernel stack or for the address space: the new process is given back, and
      -- it was in no queue.
      · rw [if_pos hmem, if_pos hmem]
        have hback : (proc :: k.procs.allocated).erase proc = k.procs.allocated :=
          List.erase_cons_head ..
        refine ⟨rfl, rfl, rfl, hpc, ?_, queue, ?_⟩
        · intro q hq hq'
          have hq'' : q ∈ (proc :: k.procs.allocated).erase proc := hq
          rw [hback] at hq''
          exact absurd hq'' hq'
        · have hproc : proc ∉ queue := fun hq => hp ((h.mem proc).mp hq).1
          refine ⟨?_, fun q => ?_⟩
          · show RqOk (rrAlloc k.rq proc) ((proc :: k.procs.allocated).erase proc) queue
            rw [hback]
            exact (h.rq.add hp).shrink (fun q hq => List.mem_cons_of_mem proc hq)
              h.rq.sub
          · show _ ↔ q ∈ (proc :: k.procs.allocated).erase proc ∧
              Function.update k.procs.state proc .uninit q = .runnable ∧ _
            rw [hback, h.mem]
            by_cases hqp : q = proc
            · subst hqp
              exact iff_of_false (fun hq => hp hq.1) fun hq => hp hq.1
            · rw [Function.update_of_ne hqp]
              rfl
      rw [if_neg hmem, if_neg hmem]
      refine Ends.bind (Ends.lift _) ?_
      rintro ⟨pid, procs₁⟩ hpid
      obtain ⟨next_safe, hprocs₁⟩ := getPid_frame hpid
      refine Ends.bind (Ends.lift _) ?_
      intro procs₂ hlinks
      obtain ⟨hstate, hcur, halloc⟩ := setLinks_frame hlinks
      have hstate₂ : procs₂.state = Function.update k.procs.state proc .uninit := by
        rw [hstate]
        show procs₁.state = _
        rw [hprocs₁]
        rfl
      have hcur₂ : procs₂.current = k.procs.current := by
        rw [hcur]
        show procs₁.current = _
        rw [hprocs₁]
        rfl
      have halloc₂ : procs₂.allocated = proc :: k.procs.allocated := by
        rw [halloc]
        show procs₁.allocated = _
        rw [hprocs₁]
        rfl
      -- The new process is `PROC_UNINIT` and in no queue until `wakeup_proc`.
      have hqueue : QueueOk idleproc { k with
          procs := procs₂, rq := rrAlloc k.rq proc, pc := Function.update k.pc proc .run } queue :=
        h.add hp hcur₂ halloc₂ hstate₂
      refine Ends.bind (wakeup_ends hqueue ?_ ?_) ?_
      · show proc ∈ procs₂.allocated
        rw [halloc₂]
        exact List.mem_cons_self
      · show procs₂.state proc ≠ .zombie
        rw [hstate₂, Function.update_self]
        simp
      rintro k₃ ⟨hwake, hsame, hqueue₃⟩
      have hpc₃ : k₃.pc = Function.update k.pc proc .run := by rw [hsame]
      have halloc₃ : k₃.procs.allocated = proc :: k.procs.allocated := by
        obtain ⟨-, hk | hk⟩ := wakeupProc_cases hwake <;> rw [hk] <;> exact halloc₂
      refine ⟨?_, by rw [hsame], by rw [hsame], ?_, ?_, hqueue₃⟩
      · refine Halt.bind_eq_ok.mpr ⟨_, hpid, ?_⟩
        refine Halt.bind_eq_ok.mpr ⟨_, hlinks, ?_⟩
        exact Halt.bind_eq_ok.mpr ⟨_, hwake, rfl⟩
      · intro q hq
        show k₃.pc q = k.pc q
        rw [hpc₃]
        exact hpc q hq
      · intro q hq hq'
        show k₃.pc q = .run
        have hq₃ : q ∈ k₃.procs.allocated := hq
        rw [halloc₃] at hq₃
        rw [hpc₃, (List.mem_cons.mp hq₃).resolve_right hq', Function.update_self]

/-- A successful `do_fork`. -/
theorem KernelOk.fork (h : KernelOk idleproc initproc k order bucket kids queue)
    (hrunning : k.procs.state k.procs.current = .runnable) {alloc : Option P} {kstack mm : Bool}
    (hfresh : ∀ proc, alloc = some proc → proc ∉ k.procs.allocated) :
    Ends (Schedule.fork idleproc fuel k alloc kstack mm true) fun r =>
      Ok idleproc initproc r.2 := by
  refine (h.queue.fork hfresh).mono ?_
  rintro ⟨ret, k'⟩ ⟨hfork, htimers, hwaits, hpc, hpcnew, queue', hqueue⟩
  dsimp only at hfork htimers hwaits hpc hpcnew hqueue
  obtain ⟨order', bucket', kids', hprocs, hcur, hsame, hcases⟩ :=
    h.procs.fork h.current_mem (by rw [hrunning]; simp) hfresh hfork
  -- Either the call has failed and the processes are the same, or there is one more, which is
  -- runnable.
  have hgrow : (∀ x ∈ k.procs.allocated, x ∈ k'.procs.allocated) ∧ ∀ x ∈ order, x ∈ order' := by
    rcases hcases with ⟨halloc, horder, -⟩ | ⟨proc, -, halloc, horder, -⟩
    · rw [halloc, horder]
      exact ⟨fun _ hx => hx, fun _ hx => hx⟩
    · rw [halloc, horder]
      exact ⟨fun _ => List.mem_cons_of_mem proc, fun _ => List.mem_cons_of_mem proc⟩
  have hnew : ∀ x ∈ k'.procs.allocated, x ∉ k.procs.allocated →
      k'.procs.state x = .runnable := by
    intro x hx hx'
    rcases hcases with ⟨halloc, -⟩ | ⟨proc, -, halloc, -, hstate⟩
    · exact absurd hx (halloc ▸ hx')
    · rw [halloc] at hx
      rw [(List.mem_cons.mp hx).resolve_right hx']
      exact hstate
  -- The processes that were there have not changed; the new one waits nowhere.
  refine ⟨order', bucket', kids', queue', hprocs, hqueue, hgrow.2 _ h.init_mem, ?_, ?_, ?_, ?_, ?_,
    ?_, ?_, ?_, ?_, ?_⟩
  · show k'.procs.state initproc ≠ .zombie
    rw [(hsame initproc h.init_alloc).1]
    exact h.init_state
  · show k'.procs.current ∈ k'.procs.allocated
    rw [hcur]
    exact hgrow.1 _ h.current_mem
  · left
    show k'.procs.state k'.procs.current = .runnable
    rw [hcur, (hsame _ h.current_mem).1]
    exact hrunning
  · intro q hq
    by_cases hq' : q ∈ k.procs.allocated
    · rw [hpc q hq', (hsame q hq').1]
      exact h.leaving q hq'
    · rw [hpcnew q hq hq', hnew q hq hq']
      simp
  · intro q hq hrun
    by_cases hq' : q ∈ k.procs.allocated
    · rw [hpc q hq'] at hrun
      rw [(hsame q hq').1]
      exact h.running q hq' hrun
    · exact hnew q hq hq'
  · rw [hpc idleproc h.procs.idle.1]
    exact h.idle
  · rw [htimers]
    exact h.timers_nodup
  · rw [htimers]
    intro t ht
    obtain ⟨hproc, hkey, hin⟩ := h.timers t ht
    rw [hpc t.key hkey]
    exact ⟨hproc, hgrow.1 _ hkey, hin⟩
  · rw [hwaits]
    exact h.waits_nodup
  · rw [hwaits]
    intro sem q hq
    obtain ⟨hq, hin⟩ := h.waits sem q hq
    rw [hpc q hq]
    exact ⟨hgrow.1 _ hq, hin⟩

/-- `do_kill` keeps the invariant. -/
theorem KernelOk.kill (h : KernelOk idleproc initproc k order bucket kids queue) (pid : Int) :
    Ends (Schedule.kill idleproc fuel k pid) fun r => Ok idleproc initproc r.2 := by
  unfold Schedule.kill
  refine Ends.bind (Ends.lift _) ?_
  intro found hfind
  cases found with
  | none => exact ⟨order, bucket, kids, queue, h⟩
  | some proc =>
      have hproc := ((h.procs.order_mem proc).mp (h.procs.findProc hfind).1).1
      dsimp only
      split
      · exact ⟨order, bucket, kids, queue, h⟩
      have hflag : KernelOk idleproc initproc { k with procs := { k.procs with
          exiting := Function.update k.procs.exiting proc true } } order bucket kids queue := by
        refine h.states ?_ ⟨?_, h.queue.mem⟩ ?_ ?_ ?_ fun _ => Or.inl rfl
        · exact h.procs.states rfl rfl rfl rfl rfl rfl rfl rfl (fun _ hq => Or.inl hq)
            h.procs.idle.2 h.procs.wait
        · exact h.queue.rq
        all_goals rfl
      split
      · rename_i hwait
        -- A process that waits is not a zombie.
        have hsleep : k.procs.state proc = .sleeping := by
          refine h.sleeping hproc fun hzero => hwait ?_
          show k.procs.wait_state proc &&& WT_INTERRUPTED = 0
          rw [hzero]
          rfl
        refine Ends.bind (hflag.wakeup hproc ?_) ?_
        · show k.procs.state proc ≠ .zombie
          rw [hsleep]
          simp
        · rintro k₁ ⟨-, -, -, queue₁, h₁⟩
          exact ⟨order, bucket, kids, queue₁, h₁⟩
      · exact ⟨order, bucket, kids, queue, hflag⟩

/-! ### The run -/

/-- The current process goes on behind its `schedule()`. -/
theorem KernelOk.resume (h : KernelOk idleproc initproc k order bucket kids queue) :
    Ends (Schedule.resume idleproc initproc fuel k) fun r => Ok idleproc initproc r.2 := by
  unfold Schedule.resume
  cases hpc : k.pc k.procs.current with
  | run => exact ⟨order, bucket, kids, queue, h⟩
  | leaving => exact ⟨order, bucket, kids, queue, h⟩
  | blocked call => exact ⟨order, bucket, kids, queue, h⟩
  | resumed call =>
      have hrunning := h.current_runnable (by rw [hpc]; simp) (by rw [hpc]; simp)
      have hidle : k.procs.current ≠ idleproc := by
        intro e
        rw [e, h.idle] at hpc
        cases hpc
      -- The call goes on behind its `schedule()`.
      cases call with
      | wait pid =>
          have hfree : Free k := by
            refine h.free fun call hin => ?_
            rw [hpc] at hin
            rcases hin with hin | hin <;> cases hin
            exact ⟨pid, rfl⟩
          dsimp only
          split
          · refine (h.exit hrunning hfree).bind ?_
            intro k₁ hok
            exact hok
          · exact h.wait hidle hrunning hfree pid
      | sleep =>
          -- `del_timer` takes off the timer of the process, whether it has gone off or not.
          have hkeys := keys_del_timer k.procs.current k.timers
          have hdel : KernelOk idleproc initproc
              { k with timers := del_timer k.procs.current k.timers } order bucket kids queue := by
            refine h.setTimers ?_ fun t ht => ?_
            · rw [hkeys]
              exact h.timers_nodup.erase _
            · obtain ⟨t', ht', hkey, hproc⟩ := mem_del_timer ht
              rw [hkey, hproc]
              exact h.timers t' ht'
          refine ⟨order, bucket, kids, queue, hdel.returned hidle hrunning ⟨?_, ?_⟩⟩
          · intro t ht hkey
            have hmem : t.key ∈ (del_timer k.procs.current k.timers).map Timer.key :=
              List.mem_map_of_mem ht
            rw [hkeys, h.timers_nodup.mem_erase_iff] at hmem
            exact hmem.1 hkey
          · intro sem hmem
            have hin := (h.waits sem _ hmem).2
            rw [hpc] at hin
            rcases hin with hin | hin <;> cases hin
      | down sem =>
          refine (h.semDownEnd hidle hpc).bind ?_
          intro k₁ hok
          exact hok

/-- A call without a result of its own returns 0. -/
theorem Ends.returning {x : Except Stop (Kernel P S)} (h : Ends x (Ok idleproc initproc)) :
    Ends (x.map fun k => ((0 : Int), k)) fun r => Ok idleproc initproc r.2 :=
  Ends.map h

/-- Every call keeps the invariant, and none stops at an assertion of the scheduler. -/
theorem KernelOk.step (h : KernelOk idleproc initproc k order bucket kids queue) (op : Op P S)
    (hen : op.Enabled idleproc k) (hsucc : op.Succeeds) :
    Ends (op.run idleproc initproc k) fun r => Ok idleproc initproc r.2 := by
  have hrunning : k.pc k.procs.current = .run → k.procs.state k.procs.current = .runnable :=
    h.running _ h.current_mem
  have hfree : k.pc k.procs.current = .run → Free k := fun hpc =>
    h.free fun call hin => absurd hpc hin.ne_run
  cases op with
  | fork fuel alloc kstack mm files =>
      obtain ⟨hpc, -, hfresh⟩ := hen
      obtain rfl : files = true := hsucc
      exact h.fork (hrunning hpc) hfresh
  | exit fuel error_code => exact (h.exit (hrunning hen.1) (hfree hen.1)).returning
  | wait fuel pid => exact h.wait hen.2 (hrunning hen.1) (hfree hen.1) pid
  | kill fuel pid => exact h.kill pid
  | sleep time => exact (h.sleep hen.2 (hfree hen.1) time).returning
  | up sem => exact (h.semUp sem).returning
  | down sem => exact h.semDown hen.2 (hfree hen.1) sem
  | tryDown sem =>
      show Ok idleproc initproc (semTryDown k sem).2
      unfold semTryDown
      split
      · exact ⟨order, bucket, kids, queue, h.setWaits h.waits_nodup h.waits⟩
      · exact ⟨order, bucket, kids, queue, h⟩
  | yield =>
      refine ⟨order, bucket, kids, queue, h.states ?_ ⟨?_, h.queue.mem⟩ ?_ ?_ ?_ fun _ => Or.inl rfl⟩
      · exact h.procs.states rfl rfl rfl rfl rfl rfl rfl rfl (fun _ hq => Or.inl hq)
          h.procs.idle.2 h.procs.wait
      · exact h.queue.rq
      all_goals rfl
  | schedule => exact h.reschedule.returning
  | resume fuel => exact h.resume
  | tick => exact h.tick.returning
  | wakeup proc =>
      obtain ⟨hproc, hstate⟩ := hen
      refine Ends.returning ((h.wakeup hproc hstate).mono ?_)
      rintro k₁ ⟨-, -, -, queue₁, h₁⟩
      exact ⟨order, bucket, kids, queue₁, h₁⟩

/-- `proc_init` leaves `idleproc` and `initproc`, with `initproc` in the queue. -/
theorem kernelInit_ok {k₀ : Kernel P S} {pid : Int} (hne : initproc ≠ idleproc)
    (hrun : fork idleproc fuel (kernelInit idleproc k₀) (some initproc) true true true =
      .ok (pid, k)) :
    Ok idleproc initproc k := by
  have hfresh : ∀ proc, some initproc = some proc →
      proc ∉ (kernelInit idleproc k₀).procs.allocated := by
    rintro proc ⟨⟩
    show initproc ∉ [idleproc]
    simpa using hne
  have hinitq : QueueOk idleproc (kernelInit idleproc k₀) [] := by
    refine ⟨(rrInit_ok k₀.rq).add (by simp), fun p => ?_⟩
    show _ ↔ p ∈ [idleproc] ∧ _ ∧ p ≠ idleproc ∧ p ≠ idleproc
    rw [List.mem_singleton]
    exact iff_of_false (by simp) fun hp => hp.2.2.1 hp.1
  obtain ⟨hfork, htimers, hwaits, hpc, hpcnew, queue, hqueue⟩ :=
    (hinitq.fork hfresh).ok_post hrun
  obtain ⟨order, bucket, kids, hrunok⟩ := procInit_run hne hfork
  have hok := procInit_ok k₀.procs idleproc
  obtain ⟨_, _, _, -, -, hsame, hcases⟩ := hok.fork hok.idle.1 (by
    rw [show (procInit k₀.procs idleproc).current = idleproc from rfl, hok.idle.2]
    simp) hfresh hfork
  -- Both processes are runnable, and both stand outside of the calls.
  have hall : ∀ q ∈ k.procs.allocated, k.pc q = .run ∧ k.procs.state q = .runnable := by
    intro q hq
    by_cases hq' : q = idleproc
    · subst hq'
      exact ⟨hpc q hok.idle.1, (hsame q hok.idle.1).1.trans hok.idle.2⟩
    · have hnot : q ∉ (kernelInit idleproc k₀).procs.allocated := by
        show q ∉ [idleproc]
        simpa using hq'
      refine ⟨hpcnew q hq hnot, ?_⟩
      rcases hcases with ⟨halloc, -⟩ | ⟨proc, -, halloc, -, hstate⟩
      · rw [halloc] at hq
        exact absurd hq hnot
      · rw [halloc] at hq
        rw [(List.mem_cons.mp hq).resolve_right hnot]
        exact hstate
  refine ⟨order, bucket, kids, queue, hrunok.toProcsOk, hqueue, hrunok.init_mem, hrunok.init_state,
    hrunok.current_mem, Or.inl hrunok.current_state, ?_, ?_, ?_, ?_, ?_, ?_, ?_⟩
  · intro q hq
    rw [(hall q hq).1, (hall q hq).2]
    simp
  · exact fun q hq _ => (hall q hq).2
  · exact (hall idleproc hrunok.idle.1).1
  · rw [htimers]
    exact List.nodup_nil
  · rw [htimers]
    intro t ht
    cases ht
  · rw [hwaits]
    exact fun _ => List.nodup_nil
  · rw [hwaits]
    intro sem q hq
    cases hq

/-- The invariant holds in every state of a run. -/
theorem kernelRun_ok (hrun : KernelRun idleproc initproc k) : Ok idleproc initproc k := by
  induction hrun with
  | init k₀ fuel pid hne hfork => exact kernelInit_ok hne hfork
  | step op ret _ hen hop hsucc ih =>
      obtain ⟨order, bucket, kids, queue, h⟩ := ih
      exact (h.step op hen hsucc).ok_post hop

/-- In every state of a run the run list holds the runnable processes that do not run, each once,
`proc_num` is their number, and each has a time slice. Processes have been taken out in the order
in which they were put in. The assertions of the scheduler hold in every call. -/
theorem run_queue_exact (hrun : KernelRun idleproc initproc k) :
    (∃ queue : List P, k.rq.run_list.Ring none (queue.map some) ∧ queue.Nodup ∧
      (∀ p, p ∈ queue ↔ p ∈ k.procs.allocated ∧ k.procs.state p = .runnable ∧
        p ≠ k.procs.current ∧ p ≠ idleproc) ∧
      k.rq.proc_num = queue.length ∧
      (∀ p ∈ queue, 0 < k.rq.time_slice p ∧ k.rq.time_slice p ≤ k.rq.max_time_slice) ∧
      k.rq.queued = k.rq.dispatched ++ queue) ∧
    ∀ op : Op P S, op.Enabled idleproc k → op.Succeeds →
      op.run idleproc initproc k ≠ .error .enqueue ∧
        op.run idleproc initproc k ≠ .error .dequeue ∧
        op.run idleproc initproc k ≠ .error .wakeup := by
  obtain ⟨order, bucket, kids, queue, h⟩ := kernelRun_ok hrun
  refine ⟨⟨queue, h.queue.rq.ring, h.queue.rq.nodup, h.queue.mem, h.queue.rq.count,
    h.queue.rq.slice, h.queue.rq.fifo⟩, ?_⟩
  intro op hen hsucc
  exact (h.step op hen hsucc).no_assertion

/-! ### A short run -/

instance (k : Kernel P S) : Decidable (∃ call, k.pc k.procs.current = .resumed call) :=
  match h : k.pc k.procs.current with
  | .resumed call => .isTrue ⟨call, rfl⟩
  | .run | .leaving | .blocked _ => .isFalse fun ⟨_, heq⟩ => by cases heq

instance (k : Kernel P S) : Decidable (∀ call, k.pc k.procs.current ≠ .resumed call) :=
  decidable_of_iff (¬ ∃ call, k.pc k.procs.current = .resumed call) not_exists

instance (k : Kernel P S) (alloc : Option P) :
    Decidable (∀ proc, alloc = some proc → proc ∉ k.procs.allocated) :=
  inferInstanceAs (Decidable (∀ proc ∈ alloc, proc ∉ k.procs.allocated))

instance (op : Op P S) (k : Kernel P S) : Decidable (op.Enabled idleproc k) := by
  cases op <;> unfold Op.Enabled <;> infer_instance

instance (op : Op P S) : Decidable op.Succeeds := by
  cases op <;> unfold Op.Succeeds <;> infer_instance

/-- The calls in turn, as long as they can be made. -/
def kernelCalls : List (Op Nat Nat) → Kernel Nat Nat → Option (Kernel Nat Nat)
  | [], k => some k
  | op :: ops, k =>
      if op.Enabled 0 k ∧ op.Succeeds then
        ((op.run 0 1 k).toOption.map Prod.snd).bind (kernelCalls ops)
      else none

/-- Calls in turn are a run. -/
theorem kernelRun_calls : ∀ {ops : List (Op Nat Nat)} {k k' : Kernel Nat Nat}, KernelRun 0 1 k →
    kernelCalls ops k = some k' → KernelRun 0 1 k' := by
  intro ops
  induction ops with
  | nil =>
      intro k k' hrun h
      obtain rfl := Option.some.inj h
      exact hrun
  | cons op ops ih =>
      intro k k' hrun h
      obtain ⟨⟨hen, hsucc⟩, h⟩ := Option.ite_none_right_eq_some.mp h
      obtain ⟨k₁, hop, hops⟩ := Option.bind_eq_some_iff.mp h
      obtain ⟨ret, hop⟩ := toOption_snd hop
      exact ih (hrun.step op ret hen hop hsucc) hops

/-- The kernel before `sched_init`, with numbers for the structs. -/
def beforeSchedInit : Kernel Nat Nat where
  procs := beforeProcInit
  rq := ⟨⟨id, id⟩, 0, 0, fun _ => 0, fun _ => false, [], []⟩
  timers := []
  value _ := 0
  wait_queue _ := []
  wakeup_flags _ := 0
  pc _ := .run

/-- The state behind `proc_init`. -/
def afterSchedInit : Option (Kernel Nat Nat) :=
  (fork 0 20 (kernelInit 0 beforeSchedInit) (some 1) true true true).toOption.map Prod.snd

/-- `initproc` forks 2 and 3 and sleeps. While 2 runs, the timer of `initproc` expires. 2 gives way
to 3, which sleeps too, and is woken by a driver while `initproc` runs. -/
def turnCalls : List (Op Nat Nat) :=
  [.schedule, .fork 20 (some 2) true true true, .fork 20 (some 3) true true true,
    .sleep ⟨1, by decide⟩, .schedule, .tick, .yield, .schedule, .sleep ⟨10, by decide⟩, .schedule,
    .resume 20, .wakeup 3]

/-- What the end of the run looks like, evaluated. -/
def turnCheck : Option Bool := do
  let k ← afterSchedInit
  let k ← kernelCalls turnCalls k
  return decide (k.procs.current = 1 ∧ k.rq.dispatched = [1, 2, 3, 1] ∧
    k.rq.queued = [1, 2, 3, 1, 2, 3] ∧ k.rq.time_slice 2 = 4)

set_option maxRecDepth 20000 in
/-- The turns, run. -/
theorem turnCheck_eq : turnCheck = some true := by decide +kernel

/-- In the end 2 and 3 wait for their turn, in this order, 2 with one tick less. -/
theorem run_queue_exact_turns : ∃ k : Kernel Nat Nat, KernelRun 0 1 k ∧ k.procs.current = 1 ∧
    k.rq.dispatched = [1, 2, 3, 1] ∧ k.rq.queued = [1, 2, 3, 1, 2, 3] ∧ k.rq.time_slice 2 = 4 ∧
    k.rq.run_list.Ring none [some 2, some 3] ∧ k.rq.proc_num = 2 ∧
    k.procs.state 2 = .runnable ∧ k.procs.state 3 = .runnable := by
  have hcheck := turnCheck_eq
  unfold turnCheck at hcheck
  obtain ⟨k₀, hinit, hcheck⟩ := Option.bind_eq_some_iff.mp hcheck
  obtain ⟨k, hcalls, hcheck⟩ := Option.bind_eq_some_iff.mp hcheck
  obtain ⟨hcur, hout, hin, hslice⟩ := of_decide_eq_true (Option.some.inj hcheck)
  obtain ⟨ret, hinit⟩ := toOption_snd hinit
  have hrun := kernelRun_calls (.init beforeSchedInit 20 ret (by decide) hinit) hcalls
  obtain ⟨⟨queue, hring, -, hmem, hcount, -, hfifo⟩, -⟩ := run_queue_exact hrun
  -- what has been put in and not been taken out
  have hqueue : queue = [2, 3] := by
    rw [hin, hout] at hfifo
    have hsplit : [1, 2, 3, 1] ++ [2, 3] = [1, 2, 3, 1] ++ queue := hfifo
    exact (List.append_cancel_left hsplit).symm
  subst hqueue
  exact ⟨k, hrun, hcur, hout, hin, hslice, hring, hcount, ((hmem 2).mp (by simp)).2.1,
    ((hmem 3).mp (by simp)).2.1⟩

end Ucore.Proofs.Schedule
