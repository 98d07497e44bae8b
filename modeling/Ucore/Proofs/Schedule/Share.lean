import Ucore.Proofs.Schedule.Stride

/-!
# `Ucore.Proofs.Schedule.Share`: the share of a process

Each pick of a process moves its stride up by `BIG_STRIDE / priority`, and nothing else does while
it keeps its struct and its priority (`Steps.advanced`). In a run in which the comparison is
right, two processes that could run are never more than `BIG_STRIDE` apart, so between two such
states they are picked in proportion to their priorities (`stride_share`).

`Steps` is a part of a run, with the processes that it picks in turn. `Keeps` is the condition on
its steps that the struct and the priority of a process stay, and `Advanced` what one step adds to
its stride. `Contends` is the condition on the two ends of the part: the process could run, and has
been compared with the one that does. The bound on the two ends comes from `StrideOk`, and the
difference between the ends from the picks, so the number of picks times the pass is the same for
two processes but for twice `BIG_STRIDE`.

In `stride_share_twoProcs` two processes with different priorities take turns, and are picked in
that proportion.
-/

set_option autoImplicit false

namespace Ucore.Proofs.Schedule

open Ucore.Lib Ucore.Schedule Ucore.Schedule.StrideState

variable {P : Type} [DecidableEq P] {s s' : StrideState P} {p q idleproc : P} {ps : List P}
  {cond : StrideState P → StrideOp P → Prop}

/-- The process that a step picks, when it calls `sched_class_pick_next`. -/
def picked (idleproc : P) (s : StrideState P) (op : StrideOp P) : Option P :=
  (picking idleproc s op).bind fun t => t.stride_pick_next.1

/-- Steps that meet a condition, with the processes that they pick in turn. -/
inductive Steps (idleproc : P) (cond : StrideState P → StrideOp P → Prop) (s : StrideState P) :
    List P → StrideState P → Prop
  | refl : Steps idleproc cond s [] s
  | step {ps : List P} {s' s'' : StrideState P} (op : StrideOp P) : Steps idleproc cond s ps s' →
      op.Enabled idleproc s' → cond s' op → op.run idleproc s' = .ok s'' →
      Steps idleproc cond s (ps ++ (picked idleproc s' op).toList) s''

/-- A step in which a process keeps its struct and its priority. -/
def Keeps (p : P) (s : StrideState P) : StrideOp P → Prop
  | .fork proc => proc ≠ p
  | .setPriority _ => s.current ≠ p
  | _ => True

/-- The process could run, and it was there when the one that runs was picked. -/
structure Contends (idleproc : P) (s : StrideState P) (p : P) : Prop where
  runnable : s.state p = .runnable
  ne_idle : p ≠ idleproc
  settled : p ∉ s.newcomers

/-- What a step adds to the stride of `p`, and that it leaves the priority. -/
structure Advanced (p : P) (picks : List P) (s s' : StrideState P) : Prop where
  trueStride : s'.trueStride p = s.trueStride p + picks.count p * (s.pass p).toNat
  priority : s'.lab6_priority p = s.lab6_priority p

/-- Nothing has been done. -/
theorem Advanced.refl (p : P) (s : StrideState P) : Advanced p [] s s where
  trueStride := by simp
  priority := rfl

/-- The stride that a pick adds has not changed. -/
theorem Advanced.pass (h : Advanced p ps s s') : s'.pass p = s.pass p := by
  unfold StrideState.pass
  rw [h.priority]

/-- One step after another. -/
theorem Advanced.trans {qs : List P} {s'' : StrideState P} (h : Advanced p ps s s')
    (h' : Advanced p qs s' s'') : Advanced p (ps ++ qs) s s'' where
  trueStride := by
    rw [h'.trueStride, h.trueStride, h.pass, List.count_append, Nat.add_mul, Nat.add_assoc]
  priority := h'.priority.trans h.priority

/-- Nothing is picked. -/
theorem Advanced.of_eq (htrue : s'.trueStride p = s.trueStride p)
    (hprio : s'.lab6_priority p = s.lab6_priority p) : Advanced p [] s s' where
  trueStride := by simp [htrue]
  priority := hprio

/-! ### One step -/

/-- `stride_enqueue` leaves the strides. -/
@[simp] theorem stride_enqueue_trueStride (s : StrideState P) (proc : P) :
    (s.stride_enqueue proc).trueStride = s.trueStride := by
  unfold stride_enqueue
  split <;> rfl

/-- `stride_enqueue` leaves the priorities. -/
@[simp] theorem stride_enqueue_lab6_priority (s : StrideState P) (proc : P) :
    (s.stride_enqueue proc).lab6_priority = s.lab6_priority := by
  unfold stride_enqueue
  split <;> rfl

/-- `stride_dequeue` leaves the strides. -/
@[simp] theorem stride_dequeue_trueStride (s : StrideState P) (proc : P) :
    (s.stride_dequeue proc).trueStride = s.trueStride := by
  unfold stride_dequeue
  split <;> rfl

/-- `stride_dequeue` leaves the priorities. -/
@[simp] theorem stride_dequeue_lab6_priority (s : StrideState P) (proc : P) :
    (s.stride_dequeue proc).lab6_priority = s.lab6_priority := by
  unfold stride_dequeue
  split <;> rfl

/-- Putting a process into the queue picks nobody. -/
theorem advanced_enqueue (p idleproc : P) (s : StrideState P) (proc : P) :
    Advanced p [] s (s.sched_class_enqueue idleproc proc) := by
  unfold sched_class_enqueue
  split
  · exact .of_eq (by simp) (by simp)
  · exact .refl p s

/-- The fields of the strides are as they were in front of `schedule`. -/
theorem advanced_putBack (p idleproc : P) {t : StrideState P}
    (htrue : t.trueStride = s.trueStride) (hprio : t.lab6_priority = s.lab6_priority) :
    Advanced p [] s (t.putBack idleproc) := by
  unfold StrideState.putBack
  dsimp only
  split
  · have h := advanced_enqueue p idleproc
      ({ t with
        need_resched := Function.update t.need_resched t.current false
        newcomers := [] } : StrideState P) t.current
    refine .of_eq (h.trueStride.trans ?_) (h.priority.trans (congrFun hprio p))
    simp [htrue]
  · exact .of_eq (congrFun htrue p) (congrFun hprio p)

/-- The root moves up, and no other process. -/
theorem advanced_pickNext (s : StrideState P) :
    Advanced p s.stride_pick_next.1.toList s (s.pickNext idleproc) := by
  unfold StrideState.pickNext stride_pick_next
  cases s.lab6_run_pool.root with
  | none => exact .of_eq rfl rfl
  | some m =>
      refine ⟨?_, by simp⟩
      by_cases hpm : p = m
      · simp [hpm]
      · simp [Function.update_of_ne hpm, Ne.symm hpm]

/-- A wake-up picks nobody. -/
theorem advanced_wakeup (h : s.wakeup_proc idleproc q = .ok s') : Advanced p [] s s' := by
  unfold wakeup_proc at h
  dsimp only at h
  split_ifs at h
  · obtain rfl := Except.ok.inj h
    have henq := advanced_enqueue p idleproc
      ({ s with state := Function.update s.state q .runnable } : StrideState P) q
    exact .of_eq (henq.trueStride.trans (by simp)) henq.priority
  · obtain rfl := Except.ok.inj h
    exact .of_eq rfl rfl
  · obtain rfl := Except.ok.inj h
    exact .refl p s

/-- A tick picks nobody. -/
theorem advanced_tick (s : StrideState P) (proc : P) :
    Advanced p [] s (s.sched_class_proc_tick idleproc proc) := by
  unfold sched_class_proc_tick stride_proc_tick
  dsimp only
  split_ifs <;> exact .of_eq rfl rfl

/-- A step moves a process up once for each time it picks it. -/
theorem Advanced.step {op : StrideOp P} (hkeeps : Keeps p s op)
    (hok : op.run idleproc s = .ok s') :
    Advanced p (picked idleproc s op).toList s s' := by
  cases hpick : picking idleproc s op with
  | some t =>
      rw [run_of_picking hpick] at hok
      obtain rfl := Except.ok.inj hok
      unfold picked
      rw [hpick]
      have hback : Advanced p [] s t := by
        cases op with
        | sleep | exit | schedule =>
            obtain rfl := Option.some.inj hpick
            exact advanced_putBack p idleproc rfl rfl
        | _ => cases hpick
      exact hback.trans (advanced_pickNext t)
  | none =>
      unfold picked
      rw [hpick]
      cases op with
      | fork proc =>
          have hpp : p ≠ proc := Ne.symm hkeeps
          have halloc : Advanced p [] s (s.alloc_proc proc) :=
            .of_eq (Function.update_of_ne hpp ..) (Function.update_of_ne hpp ..)
          exact halloc.trans (advanced_wakeup hok)
      | wake proc => exact advanced_wakeup hok
      | yield =>
          obtain rfl := Except.ok.inj hok
          exact .of_eq rfl rfl
      | setPriority priority =>
          obtain rfl := Except.ok.inj hok
          exact .of_eq rfl (Function.update_of_ne (Ne.symm hkeeps) ..)
      | tick =>
          obtain rfl := Except.ok.inj hok
          exact advanced_tick s s.current
      | sleep | exit | schedule => cases hpick

/-! ### Runs -/

/-- The induction is on the steps. -/
theorem Steps.advanced (h : Steps idleproc cond s ps s') (hkeeps : ∀ t op, cond t op → Keeps p t op) :
    Advanced p ps s s' := by
  induction h with
  | refl => exact .refl p s
  | step op _ _ hcond hok ih => exact ih.trans (.step (hkeeps _ op hcond) hok)

/-- Steps behind a run are a run. -/
theorem Steps.run (h : Steps idleproc cond s ps s') (hrun : StrideRun idleproc (Meets idleproc) s)
    (hmeets : ∀ t op, cond t op → Meets idleproc t op) : StrideRun idleproc (Meets idleproc) s' := by
  induction h with
  | refl => exact hrun
  | step op _ hen hcond hok ih => exact ih.step op hen (hmeets _ op hcond) hok

/-- Two processes that could run are in the queue, or one of them runs. -/
theorem StrideOk.near (h : StrideOk idleproc s) (hp : Contends idleproc s p)
    (hq : Contends idleproc s q) : Near (s.trueStride p) (s.trueStride q) := by
  have hmem : ∀ r, Contends idleproc s r → r ≠ s.current → r ∈ s.lab6_run_pool.entries :=
    fun r hr hne => (h.mem r).mpr ⟨hr.runnable, hne, hr.ne_idle⟩
  by_cases hpc : p = s.current
  · by_cases hqc : q = s.current
    · rw [hpc, hqc]
      exact .refl _
    · rw [hpc]
      exact h.behind (hpc ▸ hp.ne_idle) q (hmem q hq hqc) hq.settled
  · by_cases hqc : q = s.current
    · rw [hqc]
      exact (h.behind (hqc ▸ hq.ne_idle) p (hmem p hp hpc) hp.settled).symm
    · exact h.pool.window p (hmem p hp hpc) q (hmem q hq hqc)

/-- The condition on the steps between two states: the comparison stays right, and both processes
keep their structs and their priorities. -/
def Shares (idleproc p q : P) (s : StrideState P) (op : StrideOp P) : Prop :=
  Meets idleproc s op ∧ Keeps p s op ∧ Keeps q s op

/-- Between two states in which both processes could run, the picks of each, weighted with
`BIG_STRIDE / priority`, are the same but for two `BIG_STRIDE`. -/
theorem stride_share (hrun : StrideRun idleproc (Meets idleproc) s)
    (hsteps : Steps idleproc (Shares idleproc p q) s ps s')
    (hp : Contends idleproc s p) (hq : Contends idleproc s q)
    (hp' : Contends idleproc s' p) (hq' : Contends idleproc s' q) :
    ps.count p * (s.pass p).toNat ≤
        ps.count q * (s.pass q).toNat + 2 * BIG_STRIDE.toNat ∧
      ps.count q * (s.pass q).toNat ≤
        ps.count p * (s.pass p).toNat + 2 * BIG_STRIDE.toNat := by
  have hnear := (StrideOk.of_run hrun).near hp hq
  have hrun' := hsteps.run hrun fun _ _ h => h.1
  have hnear' := (StrideOk.of_run hrun').near hp' hq'
  have hadv := hsteps.advanced fun _ _ h => h.2.1
  have hadv' := hsteps.advanced fun _ _ h => h.2.2
  rw [hadv.trueStride, hadv'.trueStride] at hnear'
  obtain ⟨h₁, h₂⟩ := hnear
  obtain ⟨h₁', h₂'⟩ := hnear'
  constructor <;> omega

/-- `initproc` and the process 2 that it has forked, from the first pick of 2 on to the next. -/
theorem stride_share_twoProcs : ∃ (s s' : StrideState Nat) (ps : List Nat), ps.length = 2 ∧
    StrideRun 0 (Meets 0) s ∧ Steps 0 (Shares 0 1 2) s ps s' ∧
    ps.count 1 * (s.pass 1).toNat ≤ ps.count 2 * (s.pass 2).toNat + 2 * BIG_STRIDE.toNat := by
  have h₀ : StrideRun 0 (Meets 0) _ := .init beforeInit 20 1 (by decide) rfl
  have h₁ : StrideRun 0 (Meets 0) _ :=
    h₀.step .schedule trivial (fun hne => absurd rfl hne) rfl
  have h₂ : StrideRun 0 (Meets 0) _ := h₁.step (.fork 2) (by decide) (by unfold Meets; decide) rfl
  have h₃ : StrideRun 0 (Meets 0) _ := h₂.step .schedule trivial (by unfold Meets; decide) rfl
  have hstart : ∀ {s : StrideState Nat}, StrideRun 0 (Meets 0) s →
      Steps 0 (Shares 0 1 2) s [] s := fun _ => .refl
  have hsteps₁ : Steps 0 (Shares 0 1 2) _ _ _ :=
    (hstart h₃).step .schedule trivial ⟨by unfold Meets; decide, trivial, trivial⟩ rfl
  have hsteps₂ : Steps 0 (Shares 0 1 2) _ _ _ :=
    hsteps₁.step .schedule trivial ⟨by unfold Meets; decide, trivial, trivial⟩ rfl
  refine ⟨_, _, _, ?_, h₃, hsteps₂, (stride_share h₃ hsteps₂ ?_ ?_ ?_ ?_).1⟩
  · decide
  all_goals exact ⟨by decide, by decide, by decide⟩

end Ucore.Proofs.Schedule
