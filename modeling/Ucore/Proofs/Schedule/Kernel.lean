import Ucore.Proofs.Process.Run
import Ucore.Proofs.Schedule.RunQueue
import Ucore.Proofs.Schedule.Timer
import Ucore.Schedule.Kernel

/-!
# `Ucore.Proofs.Schedule.Kernel`: who is in the run queue

A call either keeps the run queue right or stops for a reason that has nothing to do with it: `Ends
x post` says that `x` does not stop at an assertion of the scheduler, and that `post` holds of what
it returns. `QueueOk` says who is in the queue, and `KernelOk` adds what is needed to see that no
call wakes up a zombie: where each process stands, and who can be on a timer or in a wait queue.
What a call does to the processes is what the call of `Ucore.Process.Proc` does.

## The invariant

* `QueueOk`: the queue holds the runnable processes but for the current one and `idleproc`. It is an
  equivalence, so a call has to put every process that it wakes up into the queue and no other one.
* Where a process stands is its program counter `pc`: on its own, in front of the `schedule()` of
  some call, behind it, or leaving. A process is leaving if and only if it is a zombie.
* A process on a timer is in `do_sleep`, and one in the wait queue of a semaphore is in `down`. So
  neither is a zombie when the timer expires or the unit comes, and the assertion of `wakeup_proc`
  holds.

## The steps

`KernelOk.wakeup` is the wake-up of a process that is no zombie, which all of the calls above come
down to. `KernelOk.reschedule` is `schedule`: the current process goes behind the others when it is
runnable, and the first one of the queue runs. `KernelOk.exit` is `do_exit` up to that point.
-/

set_option autoImplicit false
set_option linter.unusedSectionVars false

namespace Ucore.Proofs.Schedule

open Ucore.Lib Ucore.Libs Ucore.Process Ucore.Schedule Ucore.Proofs.Process

/-! ### Calls that end -/

section
variable {α β : Type}

/-- The call does not stop at an assertion of the scheduler, and what it returns is `post`. -/
def Ends (x : Except Stop α) (post : α → Prop) : Prop :=
  match x with
  | .ok a => post a
  | .error (.other _) => True
  | .error _ => False

/-- What a call returns is also what follows from it. -/
theorem Ends.mono {x : Except Stop α} {post post' : α → Prop} (h : Ends x post)
    (himp : ∀ a, post a → post' a) : Ends x post' := by
  cases x with
  | ok a => exact himp a h
  | error e => cases e <;> exact h

/-- One call after another. -/
theorem Ends.bind {x : Except Stop α} {f : α → Except Stop β} {post : α → Prop} {post' : β → Prop}
    (h : Ends x post) (hf : ∀ a, post a → Ends (f a) post') : Ends (x >>= f) post' := by
  cases x with
  | ok a => exact hf a h
  | error e => cases e <;> exact h

/-- A call, and a function of what it returns. -/
theorem Ends.map {x : Except Stop α} {f : α → β} {post : β → Prop}
    (h : Ends x fun a => post (f a)) : Ends (x.map f) post := by
  cases x with
  | ok a => exact h
  | error e => cases e <;> exact h

/-- A call without these assertions. -/
theorem Ends.lift (x : Except Halt α) : Ends (Ucore.Schedule.lift x) fun a => x = .ok a := by
  cases x with
  | ok a => rfl
  | error e => trivial

/-- What a call returns that returns. -/
theorem Ends.ok_post {x : Except Stop α} {post : α → Prop} (h : Ends x post) {a : α}
    (hx : x = .ok a) : post a := by
  rw [hx] at h
  exact h

/-- The three assertions at which a call does not stop. -/
theorem Ends.no_assertion {x : Except Stop α} {post : α → Prop} (h : Ends x post) :
    x ≠ .error .enqueue ∧ x ≠ .error .dequeue ∧ x ≠ .error .wakeup := by
  refine ⟨?_, ?_, ?_⟩
  all_goals
    rintro rfl
    exact h

end

variable {P S : Type} [DecidableEq P] [DecidableEq S] {order queue : List P}
  {bucket : Nat → List P} {kids : P → List P} {k k' : Kernel P S} {p q : P}
  {idleproc initproc : P} {fuel : Nat}

/-! ### The queue -/

/-- The queue holds the runnable processes that do not run. -/
structure QueueOk (idleproc : P) (k : Kernel P S) (queue : List P) : Prop where
  rq : RqOk k.rq k.procs.allocated queue
  mem : ∀ p, p ∈ queue ↔ p ∈ k.procs.allocated ∧ k.procs.state p = .runnable ∧
    p ≠ k.procs.current ∧ p ≠ idleproc

/-- The queue depends on the run queue, the structs, the current process and who is runnable. -/
theorem QueueOk.congr (h : QueueOk idleproc k queue) (hrq : k'.rq = k.rq)
    (halloc : k'.procs.allocated = k.procs.allocated)
    (hcur : k'.procs.current = k.procs.current)
    (hstate : ∀ p ∈ k.procs.allocated, p ≠ k.procs.current →
      (k'.procs.state p = .runnable ↔ k.procs.state p = .runnable)) :
    QueueOk idleproc k' queue := by
  refine ⟨by rw [hrq, halloc]; exact h.rq, fun p => ?_⟩
  rw [h.mem, halloc, hcur]
  refine and_congr_right fun hp => ?_
  by_cases hpc : p = k.procs.current
  · simp [hpc]
  · rw [hstate p hp hpc]

/-- What a call leaves that only wakes processes up. -/
def SameBut (k k' : Kernel P S) : Prop := k' = { k with procs := k'.procs, rq := k'.rq }

/-- Nothing has been done. -/
theorem SameBut.refl (k : Kernel P S) : SameBut k k := rfl

/-- One step after another. -/
theorem SameBut.trans {k₁ k₂ : Kernel P S} (h₁ : SameBut k k₁) (h₂ : SameBut k₁ k₂) :
    SameBut k k₂ := by
  unfold SameBut at *
  rw [h₂, h₁]

/-- `wakeup_proc` of a process that is not a zombie. -/
theorem wakeup_ends (h : QueueOk idleproc k queue) (hp : p ∈ k.procs.allocated)
    (hz : k.procs.state p ≠ .zombie) :
    Ends (wakeup idleproc k p) fun k' => wakeupProc k.procs p = .ok k'.procs ∧ SameBut k k' ∧
      ∃ queue', QueueOk idleproc k' queue' := by
  unfold wakeup wakeupProc
  rw [if_neg hz, if_neg hz]
  by_cases hrun : k.procs.state p = .runnable
  · rw [if_neg (not_not.mpr hrun), if_neg (not_not.mpr hrun)]
    exact ⟨rfl, rfl, queue, h⟩
  · rw [if_pos hrun, if_pos hrun]
    have hpq : p ∉ queue := fun hmem => hrun ((h.mem p).mp hmem).2.1
    have hother : ∀ q, q ≠ p → Function.update k.procs.state p .runnable q = k.procs.state q :=
      fun q hq => Function.update_of_ne hq ..
    dsimp only
    by_cases hpc : p = k.procs.current
    · rw [if_neg (not_not.mpr hpc)]
      refine ⟨rfl, rfl, queue, h.congr rfl rfl rfl ?_⟩
      intro q _ hqc
      show Function.update k.procs.state p .runnable q = _ ↔ _
      rw [hother q (hpc ▸ hqc)]
    · rw [if_pos hpc]
      unfold schedClassEnqueue
      by_cases hpi : p = idleproc
      · rw [if_neg (not_not.mpr hpi)]
        refine ⟨rfl, rfl, queue, h.rq, fun q => ?_⟩
        rw [h.mem]
        by_cases hqp : q = p
        · simp [hqp, hpi]
        · show _ ↔ _ ∧ Function.update k.procs.state p .runnable q = _ ∧ _
          rw [hother q hqp]
      · rw [if_pos hpi]
        obtain ⟨rq', henq, hrq⟩ := h.rq.enqueue hp hpq
        rw [henq]
        refine ⟨rfl, rfl, queue ++ [p], hrq, fun q => ?_⟩
        rw [List.mem_append, List.mem_singleton, h.mem]
        show _ ↔ _ ∧ Function.update k.procs.state p .runnable q = _ ∧ _
        by_cases hqp : q = p
        · subst hqp
          rw [Function.update_self]
          exact iff_of_true (Or.inr rfl) ⟨hp, rfl, hpc, hpi⟩
        · rw [hother q hqp]
          exact or_iff_left hqp

/-- The loop of `do_exit` does to the processes what it does in `Ucore.Process.Proc`. -/
theorem handOver_ends (hinit : initproc ∈ k.procs.allocated) : ∀ {fuel : Nat} {k₁ : Kernel P S}
    {queue : List P}, k₁.procs.allocated = k.procs.allocated → QueueOk idleproc k₁ queue →
    k₁.procs.state initproc ≠ .zombie →
    Ends (handOver idleproc initproc fuel k₁) fun k' =>
      exitChildren initproc fuel k₁.procs = .ok k'.procs ∧ SameBut k₁ k' ∧
        ∃ queue', QueueOk idleproc k' queue' := by
  intro fuel
  induction fuel with
  | zero =>
      intro k₁ queue _ _ _
      trivial
  | succ fuel ih =>
      intro k₁ queue halloc hqueue hz
      unfold handOver exitChildren
      cases hc : k₁.procs.cptr k₁.procs.current with
      | none => exact ⟨rfl, rfl, queue, hqueue⟩
      | some proc =>
          dsimp only
          -- The pointers have nothing to do with the queue.
          have hmoved : ∀ s : Procs P, s.allocated = k₁.procs.allocated →
              s.current = k₁.procs.current → s.state = k₁.procs.state →
              QueueOk idleproc { k₁ with procs := s } queue := by
            intro s hsalloc hscur hsstate
            exact hqueue.congr rfl hsalloc hscur fun q _ _ => by rw [hsstate]
          have hinit₁ : initproc ∈ k₁.procs.allocated := halloc ▸ hinit
          by_cases hwake : k₁.procs.state proc = .zombie ∧ k₁.procs.wait_state initproc = WT_CHILD
          · rw [if_pos hwake, if_pos hwake]
            refine Ends.bind (wakeup_ends (hmoved _ ?_ ?_ ?_) ?_ ?_) ?_
            · rfl
            · rfl
            · rfl
            · exact hinit₁
            · exact hz
            rintro k₂ ⟨hprocs, hsame, queue₂, hqueue₂⟩
            have hcases := wakeupProc_cases hprocs
            have halloc₂ : k₂.procs.allocated = k.procs.allocated := by
              obtain ⟨-, hk | hk⟩ := hcases <;> rw [hk] <;> exact halloc
            have hz₂ : k₂.procs.state initproc ≠ .zombie := by
              rw [wakeupProc_runnable hprocs]
              simp
            refine (ih halloc₂ hqueue₂ hz₂).mono ?_
            rintro k₃ ⟨hexit, hsame₃, hqueue₃⟩
            refine ⟨?_, ?_, hqueue₃⟩
            · exact Halt.bind_eq_ok.mpr ⟨k₂.procs, hprocs, hexit⟩
            · exact SameBut.trans hsame hsame₃
          · rw [if_neg hwake, if_neg hwake]
            refine Ends.mono (ih ?_ (hmoved _ ?_ ?_ ?_) ?_) ?_
            · exact halloc
            · rfl
            · rfl
            · rfl
            · exact hz
            rintro k₃ ⟨hexit, hsame₃, hqueue₃⟩
            exact ⟨hexit, hsame₃, hqueue₃⟩

/-! ### The invariant -/

/-- The process is in the call, in front of its `schedule()` or behind it. -/
def Pc.In (pc : Pc S) (call : Blocking S) : Prop := pc = .blocked call ∨ pc = .resumed call

/-- What holds in every state of a run: the lists of processes, the queue, where the processes
stand, and who is on a timer or in a wait queue. -/
structure KernelOk (idleproc initproc : P) (k : Kernel P S) (order : List P)
    (bucket : Nat → List P) (kids : P → List P) (queue : List P) : Prop where
  procs : ProcsOk idleproc k.procs order bucket kids
  queue : QueueOk idleproc k queue
  init_mem : initproc ∈ order
  init_state : k.procs.state initproc ≠ .zombie
  current_mem : k.procs.current ∈ k.procs.allocated
  current : k.procs.state k.procs.current = .runnable ∨
    (∃ call, k.pc k.procs.current = .blocked call) ∨ k.pc k.procs.current = .leaving
  leaving : ∀ p ∈ k.procs.allocated, k.pc p = .leaving ↔ k.procs.state p = .zombie
  running : ∀ p ∈ k.procs.allocated, k.pc p = .run → k.procs.state p = .runnable
  idle : k.pc idleproc = .run
  timers_nodup : (k.timers.map Timer.key).Nodup
  timers : ∀ t ∈ k.timers, t.proc = t.key ∧ t.key ∈ k.procs.allocated ∧ Pc.In (k.pc t.key) .sleep
  waits_nodup : ∀ sem, (k.wait_queue sem).Nodup
  waits : ∀ sem, ∀ p ∈ k.wait_queue sem, p ∈ k.procs.allocated ∧ Pc.In (k.pc p) (.down sem)

/-- Some lists for which the invariant holds. -/
def Ok (idleproc initproc : P) (k : Kernel P S) : Prop :=
  ∃ order bucket kids queue, KernelOk idleproc initproc k order bucket kids queue

/-- A process in a call is not leaving. -/
theorem Pc.In.ne_leaving {pc : Pc S} {call : Blocking S} (h : Pc.In pc call) : pc ≠ .leaving := by
  rcases h with rfl | rfl <;> simp

/-- A process in a call does not run on its own. -/
theorem Pc.In.ne_run {pc : Pc S} {call : Blocking S} (h : Pc.In pc call) : pc ≠ .run := by
  rcases h with rfl | rfl <;> simp

/-- A process in a call that sleeps is not a zombie. -/
theorem KernelOk.not_zombie (h : KernelOk idleproc initproc k order bucket kids queue)
    (hp : p ∈ k.procs.allocated) {call : Blocking S} (hpc : Pc.In (k.pc p) call) :
    k.procs.state p ≠ .zombie :=
  fun hz => hpc.ne_leaving ((h.leaving p hp).mpr hz)

/-- A process that has a `wait_state` sleeps. -/
theorem KernelOk.sleeping (h : KernelOk idleproc initproc k order bucket kids queue)
    (hp : p ∈ k.procs.allocated) (hw : k.procs.wait_state p ≠ 0) :
    k.procs.state p = .sleeping :=
  (h.procs.wait p hp).resolve_right hw

/-- `initproc` has a struct. -/
theorem KernelOk.init_alloc (h : KernelOk idleproc initproc k order bucket kids queue) :
    initproc ∈ k.procs.allocated :=
  ((h.procs.order_mem initproc).mp h.init_mem).1

/-- The current process is runnable outside of the calls and behind a `schedule()`. -/
theorem KernelOk.current_runnable (h : KernelOk idleproc initproc k order bucket kids queue)
    (hblocked : ∀ call, k.pc k.procs.current ≠ .blocked call)
    (hleaving : k.pc k.procs.current ≠ .leaving) : k.procs.state k.procs.current = .runnable := by
  rcases h.current with hrun | ⟨call, hpc⟩ | hpc
  · exact hrun
  · exact absurd hpc (hblocked call)
  · exact absurd hpc hleaving

/-- Fields that the invariant does not read, and states that it does not tell apart. -/
theorem KernelOk.states (h : KernelOk idleproc initproc k order bucket kids queue)
    (hprocs : ProcsOk idleproc k'.procs order bucket kids) {queue' : List P}
    (hqueue : QueueOk idleproc k' queue') (hsame : SameBut k k')
    (halloc : k'.procs.allocated = k.procs.allocated)
    (hcur : k'.procs.current = k.procs.current)
    (hstate : ∀ p, k'.procs.state p = k.procs.state p ∨
      k.procs.state p ≠ .zombie ∧ k'.procs.state p = .runnable) :
    KernelOk idleproc initproc k' order bucket kids queue' := by
  have hpc : k'.pc = k.pc := by rw [hsame]
  have htimers : k'.timers = k.timers := by rw [hsame]
  have hwaits : k'.wait_queue = k.wait_queue := by rw [hsame]
  refine ⟨hprocs, hqueue, h.init_mem, ?_, ?_, ?_, ?_, ?_, ?_, ?_, ?_, ?_, ?_⟩
  · rcases hstate initproc with hst | ⟨-, hst⟩
    · rw [hst]
      exact h.init_state
    · rw [hst]
      simp
  · rw [hcur, halloc]
    exact h.current_mem
  · rw [hcur, hpc]
    rcases hstate k.procs.current with hst | ⟨-, hst⟩
    · rw [hst]
      exact h.current
    · exact Or.inl hst
  · rw [halloc, hpc]
    intro p hp
    rw [h.leaving p hp]
    rcases hstate p with hst | ⟨hz, hst⟩
    · rw [hst]
    · rw [hst]
      exact iff_of_false hz (by simp)
  · rw [halloc, hpc]
    intro p hp hrun
    rcases hstate p with hst | ⟨-, hst⟩
    · rw [hst]
      exact h.running p hp hrun
    · exact hst
  · rw [hpc]
    exact h.idle
  · rw [htimers]
    exact h.timers_nodup
  · rw [htimers, halloc, hpc]
    exact h.timers
  · rw [hwaits]
    exact h.waits_nodup
  · rw [hwaits, halloc, hpc]
    exact h.waits

/-- Waking up a process that is not a zombie. -/
theorem KernelOk.wakeup (h : KernelOk idleproc initproc k order bucket kids queue)
    (hp : p ∈ k.procs.allocated) (hz : k.procs.state p ≠ .zombie) :
    Ends (Schedule.wakeup idleproc k p) fun k' => SameBut k k' ∧
      k'.procs.allocated = k.procs.allocated ∧ k'.procs.current = k.procs.current ∧
      ∃ queue', KernelOk idleproc initproc k' order bucket kids queue' := by
  refine (wakeup_ends h.queue hp hz).mono ?_
  rintro k' ⟨hprocs, hsame, queue', hqueue⟩
  have hcases := (wakeupProc_cases hprocs).2
  have halloc : k'.procs.allocated = k.procs.allocated := by
    rcases hcases with hk | hk <;> rw [hk]
  have hcur : k'.procs.current = k.procs.current := by
    rcases hcases with hk | hk <;> rw [hk]
  refine ⟨hsame, halloc, hcur, queue',
    h.states (h.procs.wakeup hprocs) hqueue hsame halloc hcur fun q => ?_⟩
  rcases hcases with hk | hk
  · exact Or.inl (by rw [hk])
  · by_cases hqp : q = p
    · right
      rw [hqp]
      exact ⟨hz, wakeupProc_runnable hprocs⟩
    · left
      rw [hk]
      exact Function.update_of_ne hqp ..

/-! ### The calls -/

/-- The current process is on no timer and in no wait queue. -/
structure Free (k : Kernel P S) : Prop where
  timers : ∀ t ∈ k.timers, t.key ≠ k.procs.current
  waits : ∀ sem, k.procs.current ∉ k.wait_queue sem

/-- A process in no call, or in `do_wait`, waits on no semaphore. -/
theorem KernelOk.free (h : KernelOk idleproc initproc k order bucket kids queue)
    (hpc : ∀ call, Pc.In (k.pc k.procs.current) call → ∃ pid, call = .wait pid) : Free k := by
  constructor
  · intro t ht hkey
    obtain ⟨-, -, hin⟩ := h.timers t ht
    rw [hkey] at hin
    obtain ⟨pid, hpid⟩ := hpc _ hin
    cases hpid
  · intro sem hmem
    obtain ⟨pid, hpid⟩ := hpc _ (h.waits sem _ hmem).2
    cases hpid

/-- `do_exit` up to its `schedule`. -/
theorem KernelOk.exit (h : KernelOk idleproc initproc k order bucket kids queue)
    (hrunning : k.procs.state k.procs.current = .runnable) (hfree : Free k) {error_code : Int} :
    Ends (Schedule.exit idleproc initproc fuel k error_code) (Ok idleproc initproc) := by
  -- To the processes this is the `do_exit` of lab 5, whose lemma says the rest. What is new is the
  -- run queue, into which `wakeup_proc` may put the parent and `initproc`.
  have hlab5 : Ends (Schedule.exit idleproc initproc fuel k error_code) fun k' =>
      exitProc idleproc initproc fuel k.procs error_code = .ok k'.procs ∧
        SameBut { k with pc := Function.update k.pc k.procs.current .leaving } k' ∧
        ∃ queue', QueueOk idleproc k' queue' := by
    unfold Schedule.exit exitProc
    by_cases hidle : k.procs.current = idleproc
    · rw [if_pos hidle]
      trivial
    rw [if_neg hidle, if_neg hidle]
    by_cases hci : k.procs.current = initproc
    · rw [if_pos hci]
      trivial
    rw [if_neg hci, if_neg hci]
    cases hpar : k.procs.parent k.procs.current with
    | none =>
        dsimp only
        rw [hpar]
        trivial
    | some proc =>
        dsimp only
        rw [hpar]
        dsimp only
        -- The current process is a zombie now. It was not in the queue.
        have hother : ∀ q, q ≠ k.procs.current →
            Function.update k.procs.state k.procs.current .zombie q = k.procs.state q :=
          fun q hq => Function.update_of_ne hq ..
        have hqueue : ∀ k₁ : Kernel P S, k₁.rq = k.rq → k₁.procs.allocated = k.procs.allocated →
            k₁.procs.current = k.procs.current →
            k₁.procs.state = Function.update k.procs.state k.procs.current .zombie →
            QueueOk idleproc k₁ queue := by
          intro k₁ hrq halloc hcur hstate
          refine h.queue.congr hrq halloc hcur fun q _ hqc => ?_
          rw [hstate, hother q hqc]
        have hinit : Function.update k.procs.state k.procs.current .zombie initproc ≠ .zombie := by
          rw [hother initproc (Ne.symm hci)]
          exact h.init_state
        by_cases hwait : k.procs.wait_state proc = WT_CHILD
        · rw [if_pos hwait, if_pos hwait]
          have hproc : proc ∈ k.procs.allocated := by
            have hcur := (h.procs.order_mem k.procs.current).mpr ⟨h.current_mem, hidle⟩
            obtain ⟨r, hr, hpr, -⟩ := h.procs.parent k.procs.current hcur
            rw [hpar] at hpr
            cases hpr
            exact hr
          -- The parent waits for a child, so it is asleep, and it is neither a zombie nor the
          -- current process.
          have hsleep : k.procs.state proc = .sleeping := by
            refine h.sleeping hproc ?_
            rw [hwait]
            decide
          have hpc : proc ≠ k.procs.current := by
            rintro rfl
            rw [hrunning] at hsleep
            cases hsleep
          refine Ends.bind (wakeup_ends (hqueue _ ?_ ?_ ?_ ?_) ?_ ?_) ?_
          · rfl
          · rfl
          · rfl
          · rfl
          · exact hproc
          · show Function.update k.procs.state k.procs.current .zombie proc ≠ .zombie
            rw [hother proc hpc, hsleep]
            simp
          rintro k₂ ⟨hprocs, hsame, queue₂, hqueue₂⟩
          have hcases := (wakeupProc_cases hprocs).2
          have halloc₂ : k₂.procs.allocated = k.procs.allocated := by
            rcases hcases with hk | hk <;> rw [hk]
          have hinit₂ : k₂.procs.state initproc ≠ .zombie := by
            rcases hcases with hk | hk
            · rw [hk]
              exact hinit
            · rw [hk]
              show Function.update (Function.update k.procs.state k.procs.current .zombie) proc
                .runnable initproc ≠ .zombie
              by_cases hpi : initproc = proc
              · rw [hpi, Function.update_self]
                simp
              · rw [Function.update_of_ne hpi]
                exact hinit
          -- The loop over the children.
          refine (handOver_ends h.init_alloc halloc₂ hqueue₂ hinit₂).mono ?_
          rintro k₃ ⟨hloop, hsame₃, hqueue₃⟩
          exact ⟨Halt.bind_eq_ok.mpr ⟨k₂.procs, hprocs, hloop⟩, SameBut.trans hsame hsame₃, hqueue₃⟩
        · rw [if_neg hwait, if_neg hwait]
          refine Ends.mono (handOver_ends h.init_alloc ?_ (hqueue _ ?_ ?_ ?_ ?_) ?_) ?_
          · rfl
          · rfl
          · rfl
          · rfl
          · rfl
          · exact hinit
          rintro k₃ ⟨hloop, hsame₃, hqueue₃⟩
          exact ⟨hloop, hsame₃, hqueue₃⟩
  refine hlab5.mono ?_
  rintro k' ⟨hexit, hsame, queue', hqueue'⟩
  obtain ⟨hidle, hci, ⟨kids', hprocs⟩, hover, -⟩ :=
    h.procs.exit h.current_mem hrunning h.init_mem h.init_state hexit
  have hpc : k'.pc = Function.update k.pc k.procs.current .leaving := by rw [hsame]
  have htimers : k'.timers = k.timers := by rw [hsame]
  have hwaits : k'.wait_queue = k.wait_queue := by rw [hsame]
  have halloc : k'.procs.allocated = k.procs.allocated := by rw [hover.rest]
  have hcur : k'.procs.current = k.procs.current := by rw [hover.rest]
  have hpc_of_ne : ∀ q, q ≠ k.procs.current → k'.pc q = k.pc q := by
    intro q hq
    rw [hpc]
    exact Function.update_of_ne hq ..
  have hzombie : k'.procs.state k.procs.current = .zombie := by
    rcases hover.state k.procs.current with ⟨hst, -⟩ | ⟨hnot, -⟩
    · exact hst.trans (Function.update_self ..)
    · exact absurd (Function.update_self ..) hnot
  -- Another process is as before, or it has been woken up.
  have hstate : ∀ q, q ≠ k.procs.current → k'.procs.state q = k.procs.state q ∨
      k.procs.state q ≠ .zombie ∧ k'.procs.state q = .runnable := by
    intro q hq
    have hbase : Function.update k.procs.state k.procs.current .zombie q = k.procs.state q :=
      Function.update_of_ne hq ..
    rcases hover.state q with ⟨hst, -⟩ | ⟨hnot, hst, -⟩
    · exact Or.inl (hst.trans hbase)
    · exact Or.inr ⟨fun hz => hnot (hbase.trans hz), hst⟩
  refine ⟨order, bucket, kids', queue', hprocs, hqueue', h.init_mem, ?_, ?_, ?_, ?_, ?_, ?_, ?_, ?_,
    ?_, ?_⟩
  · rcases hstate initproc (Ne.symm hci) with hst | ⟨-, hst⟩
    · rw [hst]
      exact h.init_state
    · rw [hst]
      simp
  · rw [hcur, halloc]
    exact h.current_mem
  · right
    right
    rw [hcur, hpc, Function.update_self]
  · rw [halloc]
    intro q hq
    by_cases hqc : q = k.procs.current
    · rw [hqc, hzombie, hpc, Function.update_self]
      simp
    · rw [hpc_of_ne q hqc, h.leaving q hq]
      rcases hstate q hqc with hst | ⟨hnot, hst⟩
      · rw [hst]
      · rw [hst]
        exact iff_of_false hnot (by simp)
  · rw [halloc]
    intro q hq hrun
    by_cases hqc : q = k.procs.current
    · rw [hqc, hpc, Function.update_self] at hrun
      cases hrun
    · rw [hpc_of_ne q hqc] at hrun
      rcases hstate q hqc with hst | ⟨-, hst⟩
      · rw [hst]
        exact h.running q hq hrun
      · exact hst
  · rw [hpc_of_ne idleproc (Ne.symm hidle)]
    exact h.idle
  · rw [htimers]
    exact h.timers_nodup
  · rw [htimers, halloc]
    intro t ht
    rw [hpc_of_ne t.key (hfree.timers t ht)]
    exact h.timers t ht
  · rw [hwaits]
    exact h.waits_nodup
  · rw [hwaits, halloc]
    intro sem q hq
    rw [hpc_of_ne q (fun e => hfree.waits sem (e ▸ hq))]
    exact h.waits sem q hq

/-- The process that stops running stands behind its `schedule()`. -/
theorem pc_procRun (k : Kernel P S) (next p : P) (call : Blocking S) :
    ((procRun k next).pc p = .leaving ↔ k.pc p = .leaving) ∧
      ((procRun k next).pc p = .run ↔ k.pc p = .run) ∧
      (Pc.In ((procRun k next).pc p) call ↔ Pc.In (k.pc p) call) := by
  unfold procRun Pc.In
  cases hpc : k.pc k.procs.current with
  | blocked c =>
      by_cases hp : p = k.procs.current
      · simp [hp, hpc]
      · simp [hp]
  | run => simp
  | leaving => simp
  | resumed c => simp

/-- `proc_run` of a runnable process that is not in the queue any more. -/
theorem KernelOk.procRun (h : KernelOk idleproc initproc k order bucket kids queue) {next : P}
    {rq : RunQueue P} {need_resched : P → Bool} {queue' : List P} (hnext : next ∈ k.procs.allocated)
    (hrunnable : k.procs.state next = .runnable) (hrq : RqOk rq k.procs.allocated queue')
    (hmem : ∀ p, p ∈ queue' ↔ p ∈ k.procs.allocated ∧ k.procs.state p = .runnable ∧ p ≠ next ∧
      p ≠ idleproc) :
    Ok idleproc initproc (Schedule.procRun
      { k with procs := { k.procs with need_resched := need_resched }, rq := rq } next) := by
  have hpc := fun p call => pc_procRun
    { k with procs := { k.procs with need_resched := need_resched }, rq := rq } next p call
  refine ⟨order, bucket, kids, queue', ?_, ⟨hrq, hmem⟩, h.init_mem, h.init_state, hnext,
    Or.inl hrunnable, ?_, ?_, ?_, h.timers_nodup, ?_, h.waits_nodup, ?_⟩
  · exact h.procs.states rfl rfl rfl rfl rfl rfl rfl rfl (fun _ hq => Or.inl hq) h.procs.idle.2
      h.procs.wait
  · intro p hp
    rw [(hpc p .sleep).1]
    exact h.leaving p hp
  · intro p hp hrun
    exact h.running p hp ((hpc p .sleep).2.1.mp hrun)
  · exact (hpc idleproc .sleep).2.1.mpr h.idle
  · intro t ht
    obtain ⟨hproc, hkey, hin⟩ := h.timers t ht
    exact ⟨hproc, hkey, (hpc t.key .sleep).2.2.mpr hin⟩
  · intro sem p hp
    obtain ⟨hp, hin⟩ := h.waits sem p hp
    exact ⟨hp, (hpc p (.down sem)).2.2.mpr hin⟩

/-- The end of `schedule`, when all runnable processes are in the queue. -/
theorem KernelOk.pickNext (h : KernelOk idleproc initproc k order bucket kids queue)
    {rq : RunQueue P} {need_resched : P → Bool} {queue' : List P}
    (hrq : RqOk rq k.procs.allocated queue')
    (hmem : ∀ p, p ∈ queue' ↔ p ∈ k.procs.allocated ∧ k.procs.state p = .runnable ∧
      p ≠ idleproc) :
    Ends (Schedule.pickNext idleproc
      { k with procs := { k.procs with need_resched := need_resched }, rq := rq })
      (Ok idleproc initproc) := by
  unfold Schedule.pickNext
  dsimp only
  rw [hrq.pick_next]
  cases queue' with
  | nil =>
      refine h.procRun h.procs.idle.1 h.procs.idle.2 hrq fun p => ?_
      rw [hmem, and_self]
  | cons next rest =>
      obtain ⟨rq', hdeq, hrq'⟩ := hrq.dequeue
      have hnext := (hmem next).mp List.mem_cons_self
      have hnodup := (List.nodup_cons.mp hrq.nodup).1
      show Ends (rrDequeue rq next >>= _) _
      rw [hdeq]
      refine h.procRun hnext.1 hnext.2.1 hrq' fun p => ?_
      have hp := hmem p
      rw [List.mem_cons] at hp
      constructor
      · intro hrest
        obtain ⟨halloc, hrun, hidle⟩ := hp.mp (Or.inr hrest)
        exact ⟨halloc, hrun, fun e => hnodup (e ▸ hrest), hidle⟩
      · rintro ⟨halloc, hrun, hne, hidle⟩
        exact (hp.mpr ⟨halloc, hrun, hidle⟩).resolve_left hne

/-- `schedule` puts the current process into the queue when it is runnable, and goes to the first
process of the queue. -/
theorem KernelOk.reschedule (h : KernelOk idleproc initproc k order bucket kids queue) :
    Ends (Schedule.reschedule idleproc k) (Ok idleproc initproc) := by
  have hmem := h.queue.mem
  have hcurq : k.procs.current ∉ queue := fun hc => ((hmem _).mp hc).2.2.1 rfl
  unfold Schedule.reschedule
  dsimp only
  split
  · rename_i hrun
    unfold schedClassEnqueue
    by_cases hidle : k.procs.current = idleproc
    · rw [if_neg (not_not.mpr hidle)]
      refine h.pickNext h.queue.rq fun p => ?_
      rw [hmem, hidle, and_self]
    · rw [if_pos hidle]
      obtain ⟨rq, hrq, hok⟩ := h.queue.rq.enqueue h.current_mem hcurq
      rw [hrq]
      refine h.pickNext hok fun p => ?_
      rw [List.mem_append, List.mem_singleton, hmem]
      by_cases hpc : p = k.procs.current
      · rw [hpc]
        exact iff_of_true (Or.inr rfl) ⟨h.current_mem, hrun, hidle⟩
      · simp [hpc]
  · rename_i hrun
    refine h.pickNext h.queue.rq fun p => ?_
    rw [hmem]
    refine and_congr_right fun _ => and_congr_right fun hp => ?_
    have hpc : p ≠ k.procs.current := fun e => hrun (e ▸ hp)
    simp [hpc]

end Ucore.Proofs.Schedule
