import Ucore.Schedule.Stride

/-!
# `Ucore.Proofs.Schedule.Stride`: when strides compare right

The comparison of the stride class is right for two strides that are at most `BIG_STRIDE` apart
(`comp_eq`). As long as all processes in the queue are, the heap is in order of the strides that do
not wrap, and the process that is picked stays near the others. What can break this is a process
that comes into the queue with an old stride: a new one, which has the stride 0, or one that has
slept. `Meets` is the condition on those steps, and `stride_sound` is the run lemma.

## The invariant

`trueStride` is the stride as a number that does not wrap, kept beside the field of 32 bits.
`PoolOk` says that the field is the number wrapped, that any two processes in the queue are `Near`
each other, and that the heap is in order of the numbers. `StrideOk` adds who is in the queue, and
that the process that runs is near all that were in the queue when it was picked. The others are the
`newcomers`, and the condition on `schedule` is about these.

## The steps

* `PoolOk.pickNext`: the smallest stride grows by at most `BIG_STRIDE` (`pass_le`). It was the
  smallest, so it ends up near all others.
* `PoolOk.enqueue`: a process that is near all others may come into the queue. For a fork and a
  wake-up this is the condition; for `schedule`, it is `behind`.

In every run whose steps meet the condition the comparison is right for the queue, and it is right
in the state in which the next step picks (`stride_sound`). `stride_sound_threeProcs` is a run in
which a difference comes up to `BIG_STRIDE`, and `stride_unsound` one without the condition, at
whose end the heap picks the larger of two strides.
-/

set_option autoImplicit false
set_option linter.unusedSectionVars false

namespace Ucore.Proofs.Schedule

open Ucore.Lib Ucore.Schedule Ucore.Schedule.StrideState

variable {P : Type} [DecidableEq P] {s s' : StrideState P} {p q r idleproc : P}

/-- The two strides are at most `BIG_STRIDE` apart. -/
def Near (a b : Nat) : Prop := a ≤ b + BIG_STRIDE.toNat ∧ b ≤ a + BIG_STRIDE.toNat

/-- Nearness is symmetric. -/
theorem Near.symm {a b : Nat} (h : Near a b) : Near b a := ⟨h.2, h.1⟩

/-- A stride is near itself. -/
theorem Near.refl (a : Nat) : Near a a := ⟨Nat.le_add_right .., Nat.le_add_right ..⟩

/-- The difference of two wrapped strides, read as a signed number, is that of the strides. -/
theorem toInt_sub_ofNat {a b : Nat} (h : Near a b) :
    (BitVec.ofNat 32 a - BitVec.ofNat 32 b).toInt = (a : Int) - b := by
  obtain ⟨hab, hba⟩ : a ≤ b + 2147483647 ∧ b ≤ a + 2147483647 := h
  rw [BitVec.toInt_sub, BitVec.toInt_eq_toNat_bmod, BitVec.toInt_eq_toNat_bmod, BitVec.toNat_ofNat,
    BitVec.toNat_ofNat, Int.natCast_emod, Int.natCast_emod, Int.emod_bmod, Int.emod_bmod,
    Int.bmod_sub_bmod, Int.sub_bmod_bmod]
  exact Int.bmod_eq_of_le_mul_two (by omega) (by omega)

/-- A process in the queue, and one that runs, have a stride that has wrapped, and the heap is in
order of those that have not. -/
structure PoolOk (s : StrideState P) : Prop where
  stored : ∀ p, s.lab6_stride p = BitVec.ofNat 32 (s.trueStride p)
  nodup : s.lab6_run_pool.entries.Nodup
  on : ∀ p, s.rq p = true ↔ p ∈ s.lab6_run_pool.entries
  ordered : s.lab6_run_pool.Ordered s.trueStride
  window : ∀ p ∈ s.lab6_run_pool.entries, ∀ q ∈ s.lab6_run_pool.entries,
    Near (s.trueStride p) (s.trueStride q)

/-! ### The comparison -/

/-- `proc_stride_comp_f` compares the strides that do not wrap. -/
theorem comp_eq (hstored : ∀ p, s.lab6_stride p = BitVec.ofNat 32 (s.trueStride p))
    (h : Near (s.trueStride p) (s.trueStride q)) :
    (s.proc_stride_comp_f p q = 1 ↔ s.trueStride q < s.trueStride p) ∧
      (s.proc_stride_comp_f p q = 0 ↔ s.trueStride p = s.trueStride q) ∧
      (s.proc_stride_comp_f p q = -1 ↔ s.trueStride p < s.trueStride q) := by
  unfold proc_stride_comp_f
  rw [hstored p, hstored q, toInt_sub_ofNat h]
  dsimp only
  split
  · refine ⟨?_, ?_, ?_⟩ <;> omega
  · split <;> refine ⟨?_, ?_, ?_⟩ <;> omega

/-- What a right comparison means in a state: the comparison of two processes in the queue
is right, so it is a total preorder on the queue, and `stride_pick_next` picks a process with the
smallest stride. -/
structure Sound (s : StrideState P) : Prop where
  comp : ∀ p ∈ s.lab6_run_pool.entries, ∀ q ∈ s.lab6_run_pool.entries,
    (s.proc_stride_comp_f p q = 1 ↔ s.trueStride q < s.trueStride p) ∧
      (s.proc_stride_comp_f p q = 0 ↔ s.trueStride p = s.trueStride q) ∧
      (s.proc_stride_comp_f p q = -1 ↔ s.trueStride p < s.trueStride q)
  total : ∀ p ∈ s.lab6_run_pool.entries, ∀ q ∈ s.lab6_run_pool.entries,
    s.proc_stride_comp_f p q ≠ 1 ∨ s.proc_stride_comp_f q p ≠ 1
  trans : ∀ p ∈ s.lab6_run_pool.entries, ∀ q ∈ s.lab6_run_pool.entries,
    ∀ r ∈ s.lab6_run_pool.entries, s.proc_stride_comp_f p q ≠ 1 → s.proc_stride_comp_f q r ≠ 1 →
    s.proc_stride_comp_f p r ≠ 1
  pick : ∀ p, s.stride_pick_next.1 = some p → p ∈ s.lab6_run_pool.entries ∧
    ∀ q ∈ s.lab6_run_pool.entries, s.trueStride p ≤ s.trueStride q

/-- `stride_pick_next` returns the root of the heap. -/
theorem pick_next_fst (s : StrideState P) : s.stride_pick_next.1 = s.lab6_run_pool.root := by
  unfold stride_pick_next
  split <;> rename_i h <;> exact h.symm

/-- What the invariant says about the comparison and the pick. -/
theorem PoolOk.sound (h : PoolOk s) : Sound s := by
  have hcomp := fun p hp q hq => comp_eq h.stored (h.window p hp q hq)
  refine ⟨hcomp, ?_, ?_, ?_⟩
  · intro p hp q hq
    rw [ne_eq, ne_eq, (hcomp p hp q hq).1, (hcomp q hq p hp).1]
    omega
  · intro p hp q hq r hr
    rw [ne_eq, ne_eq, ne_eq, (hcomp p hp q hq).1, (hcomp q hq r hr).1, (hcomp p hp r hr).1]
    omega
  · intro p hpick
    rw [pick_next_fst] at hpick
    exact ⟨SkewHeap.mem_of_root hpick, fun q hq => h.ordered.root_le hpick hq⟩

/-! ### The functions of the class -/

/-- Nothing else of the state has to do with the pool. -/
theorem PoolOk.congr (h : PoolOk s) (hstride : s'.lab6_stride = s.lab6_stride)
    (htrue : s'.trueStride = s.trueStride) (hpool : s'.lab6_run_pool = s.lab6_run_pool)
    (hrq : s'.rq = s.rq) : PoolOk s' := by
  refine ⟨?_, ?_, ?_, ?_, ?_⟩
  · rw [hstride, htrue]
    exact h.stored
  · rw [hpool]
    exact h.nodup
  · rw [hpool, hrq]
    exact h.on
  · rw [hpool, htrue]
    exact h.ordered
  · rw [hpool, htrue]
    exact h.window

/-- `stride_enqueue` of a process that is not in the queue. -/
theorem PoolOk.enqueue (h : PoolOk s) (hp : p ∉ s.lab6_run_pool.entries)
    (hnear : ∀ q ∈ s.lab6_run_pool.entries, Near (s.trueStride p) (s.trueStride q)) :
    PoolOk (s.stride_enqueue p) ∧
      (s.stride_enqueue p).lab6_run_pool.entries = p ::ₘ s.lab6_run_pool.entries ∧
      (s.stride_enqueue p).trueStride = s.trueStride ∧ (s.stride_enqueue p).state = s.state ∧
      (s.stride_enqueue p).current = s.current := by
  have hoff : ¬ s.rq p = true := fun hon => hp ((h.on p).mp hon)
  have hentries : (s.stride_enqueue p).lab6_run_pool.entries =
      p ::ₘ s.lab6_run_pool.entries := by
    unfold stride_enqueue
    rw [if_neg hoff]
    exact SkewHeap.entries_insert ..
  have htrue : (s.stride_enqueue p).trueStride = s.trueStride := by
    unfold stride_enqueue
    rw [if_neg hoff]
  refine ⟨⟨?_, ?_, ?_, ?_, ?_⟩, hentries, htrue, ?_, ?_⟩
  · intro q
    rw [htrue]
    unfold stride_enqueue
    rw [if_neg hoff]
    exact h.stored q
  · rw [hentries]
    exact Multiset.nodup_cons.mpr ⟨hp, h.nodup⟩
  · intro q
    rw [hentries, Multiset.mem_cons, ← h.on q]
    unfold stride_enqueue
    rw [if_neg hoff]
    show Function.update s.rq p true q = true ↔ _
    by_cases hqp : q = p
    · simp [hqp]
    · rw [Function.update_of_ne hqp]
      exact (or_iff_right hqp).symm
  -- The heap compares wrapped strides. Within the window these compare like the true ones.
  · rw [htrue]
    unfold stride_enqueue
    rw [if_neg hoff]
    exact h.ordered.insert fun q hq => (comp_eq h.stored (hnear q hq).symm).2.2
  · rw [hentries, htrue]
    -- The window: `p` is near to every process of the queue.
    intro q hq r hr
    rcases Multiset.mem_cons.mp hq with hqp | hq' <;> rcases Multiset.mem_cons.mp hr with hrp | hr'
    · rw [hqp, hrp]
      exact Near.refl _
    · rw [hqp]
      exact hnear r hr'
    · rw [hrp]
      exact (hnear q hq').symm
    · exact h.window q hq' r hr'
  all_goals
    unfold stride_enqueue
    rw [if_neg hoff]

/-- `BIG_STRIDE / priority` is at most `BIG_STRIDE`. -/
theorem pass_le (s : StrideState P) (p : P) : (s.pass p).toNat ≤ BIG_STRIDE.toNat := by
  unfold StrideState.pass
  split
  · exact Nat.le_refl _
  · rw [BitVec.toNat_udiv]
    exact Nat.div_le_self ..

/-- The invariant between two steps. `behind` is about the process that runs: the processes that
were in the queue when it was picked are near it. -/
structure StrideOk (idleproc : P) (s : StrideState P) : Prop where
  pool : PoolOk s
  idle : s.state idleproc = .runnable
  current : s.state s.current = .runnable
  mem : ∀ p, p ∈ s.lab6_run_pool.entries ↔
    s.state p = .runnable ∧ p ≠ s.current ∧ p ≠ idleproc
  behind : s.current ≠ idleproc → ∀ q ∈ s.lab6_run_pool.entries, q ∉ s.newcomers →
    Near (s.trueStride s.current) (s.trueStride q)

/-- `schedule` from `sched_class_pick_next` on, when all runnable processes are in the queue. -/
theorem PoolOk.pickNext (h : PoolOk s) (hidle : s.state idleproc = .runnable)
    (hmem : ∀ p, p ∈ s.lab6_run_pool.entries ↔ s.state p = .runnable ∧ p ≠ idleproc) :
    StrideOk idleproc (s.pickNext idleproc) := by
  unfold StrideState.pickNext stride_pick_next
  cases hroot : s.lab6_run_pool.root with
  | none =>
      have hnil := SkewHeap.root_eq_none.mp hroot
      refine ⟨h.congr rfl rfl rfl rfl, hidle, hidle, ?_, fun hne => absurd rfl hne⟩
      intro p
      show p ∈ s.lab6_run_pool.entries ↔ s.state p = .runnable ∧ p ≠ idleproc ∧ p ≠ idleproc
      rw [hmem, and_self]
  | some m =>
      dsimp only
      have hm := SkewHeap.mem_of_root hroot
      have hon : s.rq m = true := (h.on m).mpr hm
      unfold stride_dequeue
      rw [if_pos hon]
      -- the strides behind `stride_pick_next`
      generalize hs₁ : ({ s with
        lab6_stride := Function.update s.lab6_stride m (s.lab6_stride m + s.pass m)
        trueStride := Function.update s.trueStride m (s.trueStride m + (s.pass m).toNat) } :
        StrideState P) = s₁
      have htrue : s₁.trueStride =
          Function.update s.trueStride m (s.trueStride m + (s.pass m).toNat) := by rw [← hs₁]
      have hother : ∀ q, q ≠ m → s₁.trueStride q = s.trueStride q := by
        intro q hq
        rw [htrue, Function.update_of_ne hq]
      have hstored : ∀ q, s₁.lab6_stride q = BitVec.ofNat 32 (s₁.trueStride q) := by
        intro q
        by_cases hqm : q = m
        · rw [hqm, htrue, Function.update_self, ← hs₁]
          show Function.update s.lab6_stride m (s.lab6_stride m + s.pass m) m = _
          rw [Function.update_self, h.stored m, BitVec.ofNat_add, BitVec.ofNat_toNat,
            BitVec.setWidth_eq]
        · rw [hother q hqm, ← hs₁]
          show Function.update s.lab6_stride m (s.lab6_stride m + s.pass m) q = _
          rw [Function.update_of_ne hqm]
          exact h.stored q
      have hpool : s₁.lab6_run_pool = s.lab6_run_pool := by rw [← hs₁]
      rw [← hpool] at hroot
      have hentries : s₁.lab6_run_pool.entries =
          m ::ₘ (SkewHeap.remove s₁.proc_stride_comp_f m s₁.lab6_run_pool).entries :=
        SkewHeap.entries_remove_root hroot
      have hnodup := h.nodup
      rw [← hpool, hentries, Multiset.nodup_cons] at hnodup
      have hrest : ∀ q ∈ (SkewHeap.remove s₁.proc_stride_comp_f m s₁.lab6_run_pool).entries,
          q ∈ s.lab6_run_pool.entries ∧ q ≠ m := by
        intro q hq
        refine ⟨?_, fun e => hnodup.1 (e ▸ hq)⟩
        rw [← hpool, hentries]
        exact Multiset.mem_cons_of_mem hq
      have hwindow : ∀ p ∈ (SkewHeap.remove s₁.proc_stride_comp_f m s₁.lab6_run_pool).entries,
          ∀ q ∈ (SkewHeap.remove s₁.proc_stride_comp_f m s₁.lab6_run_pool).entries,
          Near (s₁.trueStride p) (s₁.trueStride q) := by
        intro p hp q hq
        rw [hother p (hrest p hp).2, hother q (hrest q hq).2]
        exact h.window p (hrest p hp).1 q (hrest q hq).1
      -- The heap that is left compares strides that have not changed.
      have hordered : (SkewHeap.remove s₁.proc_stride_comp_f m s₁.lab6_run_pool).Ordered
          s₁.trueStride := by
        have hold : s₁.lab6_run_pool.Ordered s.trueStride := hpool ▸ h.ordered
        refine (hold.remove_root hroot fun p hp q hq => ?_).congr fun q hq =>
          hother q (hrest q hq).2
        rw [(comp_eq hstored (hwindow p hp q hq)).2.2, hother p (hrest p hp).2,
          hother q (hrest q hq).2]
      refine ⟨⟨hstored, hnodup.2, ?_, hordered, hwindow⟩, ?_, ?_, ?_, ?_⟩
      · intro q
        have hrq : s₁.rq = s.rq := by rw [← hs₁]
        show Function.update s₁.rq m false q = true ↔
          q ∈ (SkewHeap.remove s₁.proc_stride_comp_f m s₁.lab6_run_pool).entries
        rw [hrq]
        by_cases hqm : q = m
        · rw [hqm, Function.update_self]
          exact iff_of_false (by simp) hnodup.1
        · rw [Function.update_of_ne hqm, h.on q, ← hpool, hentries, Multiset.mem_cons]
          exact or_iff_right hqm
      · rw [← hs₁]
        exact hidle
      · rw [← hs₁]
        exact ((hmem m).mp hm).1
      · intro q
        have hstate : s₁.state = s.state := by rw [← hs₁]
        show q ∈ (SkewHeap.remove s₁.proc_stride_comp_f m s₁.lab6_run_pool).entries ↔
          s₁.state q = .runnable ∧ q ≠ m ∧ q ≠ idleproc
        rw [hstate]
        constructor
        · intro hq
          obtain ⟨hq', hqm⟩ := hrest q hq
          exact ⟨((hmem q).mp hq').1, hqm, ((hmem q).mp hq').2⟩
        · rintro ⟨hrun, hqm, hqi⟩
          have hq' := (hmem q).mpr ⟨hrun, hqi⟩
          rw [← hpool, hentries] at hq'
          exact (Multiset.mem_cons.mp hq').resolve_left hqm
      · -- `m` had the smallest stride, and it has grown by at most `BIG_STRIDE`
        intro _ q hq _
        show Near (s₁.trueStride m) (s₁.trueStride q)
        obtain ⟨hq', hqm⟩ := hrest q hq
        rw [hother q hqm, htrue, Function.update_self]
        have hmin := h.ordered.root_le (hpool ▸ hroot) hq'
        have hnear := h.window m hm q hq'
        have hpass := pass_le s m
        obtain ⟨-, hle⟩ := hnear
        exact ⟨by omega, by omega⟩

/-! ### The steps -/

/-- The condition on a step: a process that it puts into the queue, at the stride 0 or at that with
which it went to sleep, is near all processes in the queue; and when the process that runs goes back
into the queue, it is near those that have come in while it ran. -/
def Meets (idleproc : P) (s : StrideState P) : StrideOp P → Prop
  | .fork _ => ∀ q ∈ s.lab6_run_pool.entries, Near 0 (s.trueStride q)
  | .wake proc => ∀ q ∈ s.lab6_run_pool.entries, Near (s.trueStride proc) (s.trueStride q)
  | .schedule => s.current ≠ idleproc →
      ∀ q ∈ s.newcomers, Near (s.trueStride s.current) (s.trueStride q)
  | _ => True

/-- `schedule` up to `sched_class_pick_next`: all runnable processes are in the queue. -/
theorem StrideOk.putBack (h : StrideOk idleproc s)
    (hnear : s.current ≠ idleproc →
      ∀ q ∈ s.newcomers, Near (s.trueStride s.current) (s.trueStride q)) :
    PoolOk (s.putBack idleproc) ∧ (s.putBack idleproc).state idleproc = .runnable ∧
      ∀ p, p ∈ (s.putBack idleproc).lab6_run_pool.entries ↔
        (s.putBack idleproc).state p = .runnable ∧ p ≠ idleproc := by
  unfold StrideState.putBack
  dsimp only
  rw [if_pos h.current]
  unfold sched_class_enqueue
  have hcur : s.current ∉ s.lab6_run_pool.entries := fun hc => ((h.mem _).mp hc).2.1 rfl
  by_cases hci : s.current = idleproc
  · rw [if_neg (not_not.mpr hci)]
    refine ⟨h.pool.congr rfl rfl rfl rfl, h.idle, fun p => ?_⟩
    show p ∈ s.lab6_run_pool.entries ↔ _
    rw [h.mem, hci, and_self]
  · rw [if_pos hci]
    have hall : ∀ q ∈ s.lab6_run_pool.entries,
        Near (s.trueStride s.current) (s.trueStride q) := by
      intro q hq
      by_cases hnew : q ∈ s.newcomers
      · exact hnear hci q hnew
      · exact h.behind hci q hq hnew
    have hpool : PoolOk { s with
        need_resched := Function.update s.need_resched s.current false, newcomers := [] } :=
      h.pool.congr rfl rfl rfl rfl
    obtain ⟨hok, hentries, -, hstate, -⟩ := hpool.enqueue (p := s.current) hcur hall
    refine ⟨hok, ?_, fun p => ?_⟩
    · rw [hstate]
      exact h.idle
    · rw [hentries, hstate]
      show p ∈ s.current ::ₘ s.lab6_run_pool.entries ↔ s.state p = .runnable ∧ p ≠ idleproc
      rw [Multiset.mem_cons, h.mem]
      by_cases hpc : p = s.current
      · rw [hpc]
        exact iff_of_true (Or.inl rfl) ⟨h.current, hci⟩
      · simp [hpc]

/-- `schedule` up to `sched_class_pick_next`, for a process that sleeps or has exited: it does not
go back into the queue. -/
theorem StrideOk.putBack_leave (h : StrideOk idleproc s) (hci : s.current ≠ idleproc)
    {st : ProcState} (hst : st ≠ .runnable) {t : StrideState P}
    (ht : StrideState.putBack idleproc
      { s with state := Function.update s.state s.current st } = t) :
    PoolOk t ∧ t.state idleproc = .runnable ∧
      ∀ p, p ∈ t.lab6_run_pool.entries ↔ t.state p = .runnable ∧ p ≠ idleproc := by
  unfold StrideState.putBack at ht
  dsimp only at ht
  have hnot : ¬ Function.update s.state s.current st s.current = .runnable := by
    rw [Function.update_self]
    exact hst
  rw [if_neg hnot] at ht
  obtain rfl := ht
  have hother : ∀ p, p ≠ s.current → Function.update s.state s.current st p = s.state p :=
    fun p hp => Function.update_of_ne hp ..
  refine ⟨h.pool.congr rfl rfl rfl rfl, (hother idleproc (Ne.symm hci)).trans h.idle, fun p => ?_⟩
  show p ∈ s.lab6_run_pool.entries ↔
    Function.update s.state s.current st p = .runnable ∧ p ≠ idleproc
  rw [h.mem]
  by_cases hpc : p = s.current
  · rw [hpc, Function.update_self]
    simp [hst]
  · rw [hother p hpc]
    simp [hpc]

/-- A process that `wakeup_proc` puts into the queue. -/
theorem StrideOk.wakeup (h : StrideOk idleproc s) (hrun : s.state p ≠ .runnable)
    (hnear : ∀ q ∈ s.lab6_run_pool.entries, Near (s.trueStride p) (s.trueStride q))
    (hok : s.wakeup_proc idleproc p = .ok s') : StrideOk idleproc s' := by
  have hpc : p ≠ s.current := fun e => hrun (e ▸ h.current)
  have hpi : p ≠ idleproc := fun e => hrun (e ▸ h.idle)
  have hp : p ∉ s.lab6_run_pool.entries := fun hmem => hrun ((h.mem p).mp hmem).1
  unfold wakeup_proc at hok
  by_cases hz : s.state p = .zombie
  · rw [if_pos hz] at hok
    cases hok
  rw [if_neg hz, if_pos hrun] at hok
  dsimp only at hok
  rw [if_pos hpc] at hok
  unfold sched_class_enqueue at hok
  rw [if_pos hpi] at hok
  obtain rfl := Except.ok.inj hok
  have hpool : PoolOk { s with state := Function.update s.state p .runnable } :=
    h.pool.congr rfl rfl rfl rfl
  obtain ⟨hq, hentries, htrue, hstate, hcur⟩ := hpool.enqueue (p := p) hp hnear
  have hother : ∀ q, q ≠ p → Function.update s.state p .runnable q = s.state q :=
    fun q hq => Function.update_of_ne hq ..
  refine ⟨hq.congr rfl rfl rfl rfl, ?_, ?_, fun q => ?_, ?_⟩
  · show (stride_enqueue _ p).state idleproc = .runnable
    rw [hstate]
    exact (hother idleproc (Ne.symm hpi)).trans h.idle
  · show (stride_enqueue _ p).state (stride_enqueue _ p).current = .runnable
    rw [hstate, hcur]
    exact (hother s.current (Ne.symm hpc)).trans h.current
  · show q ∈ (stride_enqueue _ p).lab6_run_pool.entries ↔ (stride_enqueue _ p).state q = .runnable ∧
      q ≠ (stride_enqueue _ p).current ∧ q ≠ idleproc
    rw [hentries, hstate, hcur]
    show q ∈ p ::ₘ s.lab6_run_pool.entries ↔ Function.update s.state p .runnable q = .runnable ∧
      q ≠ s.current ∧ q ≠ idleproc
    rw [Multiset.mem_cons, h.mem]
    by_cases hqp : q = p
    · rw [hqp, Function.update_self]
      exact iff_of_true (Or.inl rfl) ⟨rfl, hpc, hpi⟩
    · rw [hother q hqp]
      exact or_iff_right hqp
  -- `behind` is about the processes that were in the queue before; the one woken up is new in it.
  · intro hci q hq hqnew
    have hq' : q ∈ (stride_enqueue { s with state := Function.update s.state p .runnable }
      p).lab6_run_pool.entries := hq
    have hqp : q ≠ p := fun e => hqnew (e ▸ List.mem_cons_self)
    rw [hentries] at hq'
    show Near ((stride_enqueue _ p).trueStride (stride_enqueue _ p).current)
      ((stride_enqueue _ p).trueStride q)
    rw [htrue, hcur]
    refine h.behind (by rw [← hcur]; exact hci) q ((Multiset.mem_cons.mp hq').resolve_left hqp) ?_
    intro hold
    exact hqnew (List.mem_cons_of_mem p hold)

/-- A struct that is not in use may get new fields. -/
theorem StrideOk.alloc (h : StrideOk idleproc s) (hp : s.state p = .uninit ∨ s.state p = .zombie) :
    StrideOk idleproc (s.alloc_proc p) := by
  have hrun : s.state p ≠ .runnable := by
    rcases hp with hp | hp <;> rw [hp] <;> simp
  have hpc : s.current ≠ p := fun e => hrun (e ▸ h.current)
  have hpi : idleproc ≠ p := fun e => hrun (e ▸ h.idle)
  -- A process that is not runnable is in no queue, so its stride may be set to 0.
  have hq : ∀ q ∈ s.lab6_run_pool.entries, q ≠ p := by
    rintro q hq rfl
    exact hrun ((h.mem q).mp hq).1
  have htrue : ∀ q, q ≠ p → (s.alloc_proc p).trueStride q = s.trueStride q :=
    fun q hq => Function.update_of_ne hq ..
  have hstate : ∀ q, q ≠ p → (s.alloc_proc p).state q = s.state q :=
    fun q hq => Function.update_of_ne hq ..
  refine ⟨⟨fun q => ?_, h.pool.nodup, fun q => ?_, ?_, ?_⟩, ?_, ?_, fun q => ?_, ?_⟩
  · by_cases hqp : q = p
    · show Function.update s.lab6_stride p 0 q = BitVec.ofNat 32 (Function.update s.trueStride p 0 q)
      rw [hqp, Function.update_self, Function.update_self]
      rfl
    · rw [htrue q hqp]
      exact (Function.update_of_ne hqp ..).trans (h.pool.stored q)
  · show Function.update s.rq p false q = true ↔ q ∈ s.lab6_run_pool.entries
    by_cases hqp : q = p
    · rw [hqp, Function.update_self]
      exact iff_of_false (by simp) fun hmem => hq p hmem rfl
    · rw [Function.update_of_ne hqp]
      exact h.pool.on q
  · exact h.pool.ordered.congr fun q hmem => htrue q (hq q hmem)
  · intro q hmem r hmem'
    rw [htrue q (hq q hmem), htrue r (hq r hmem')]
    exact h.pool.window q hmem r hmem'
  · rw [hstate idleproc hpi]
    exact h.idle
  · show (s.alloc_proc p).state s.current = .runnable
    rw [hstate s.current hpc]
    exact h.current
  · show q ∈ s.lab6_run_pool.entries ↔ (s.alloc_proc p).state q = .runnable ∧ q ≠ s.current ∧ _
    by_cases hqp : q = p
    · rw [hqp, show (s.alloc_proc p).state p = .uninit from Function.update_self ..]
      exact iff_of_false (fun hmem => hq p hmem rfl) (by simp)
    · rw [hstate q hqp]
      exact h.mem q
  · intro hci q hmem hnew
    show Near ((s.alloc_proc p).trueStride s.current) ((s.alloc_proc p).trueStride q)
    rw [htrue s.current hpc, htrue q (hq q hmem)]
    exact h.behind hci q hmem hnew

/-- The state in which a step calls `sched_class_pick_next`. -/
def picking (idleproc : P) (s : StrideState P) : StrideOp P → Option (StrideState P)
  | .sleep =>
      some (StrideState.putBack idleproc
        { s with state := Function.update s.state s.current .sleeping })
  | .exit =>
      some (StrideState.putBack idleproc
        { s with state := Function.update s.state s.current .zombie })
  | .schedule => some (s.putBack idleproc)
  | _ => none

/-- The queue in the state in which a step calls `stride_pick_next`. -/
theorem StrideOk.picking (h : StrideOk idleproc s) {op : StrideOp P} {t : StrideState P}
    (hen : op.Enabled idleproc s) (hmeets : Meets idleproc s op)
    (ht : picking idleproc s op = some t) :
    PoolOk t ∧ t.state idleproc = .runnable ∧
      ∀ p, p ∈ t.lab6_run_pool.entries ↔ t.state p = .runnable ∧ p ≠ idleproc := by
  cases op with
  | sleep => exact h.putBack_leave hen (by simp) (Option.some.inj ht)
  | exit => exact h.putBack_leave hen (by simp) (Option.some.inj ht)
  | schedule =>
      obtain rfl := Option.some.inj ht
      exact h.putBack hmeets
  | _ => cases ht

/-- A step that calls `schedule` goes on from the state in which it picks. -/
theorem run_of_picking {op : StrideOp P} {t : StrideState P}
    (ht : Schedule.picking idleproc s op = some t) :
    op.run idleproc s = .ok (t.pickNext idleproc) := by
  cases op with
  | sleep | exit | schedule =>
      obtain rfl := Option.some.inj ht
      rfl
  | _ => cases ht

/-- The other fields have nothing to do with the invariant. -/
theorem StrideOk.congr (h : StrideOk idleproc s) (hpool : PoolOk s')
    (hstate : s'.state = s.state) (hcur : s'.current = s.current)
    (htrue : s'.trueStride = s.trueStride) (hqueue : s'.lab6_run_pool = s.lab6_run_pool)
    (hnew : s'.newcomers = s.newcomers) : StrideOk idleproc s' := by
  refine ⟨hpool, ?_, ?_, fun p => ?_, ?_⟩
  · rw [hstate]
    exact h.idle
  · rw [hstate, hcur]
    exact h.current
  · rw [hqueue, hstate, hcur]
    exact h.mem p
  · rw [hqueue, hcur, htrue, hnew]
    exact h.behind

/-- The timer tick leaves the queue and the strides as they are. -/
theorem StrideOk.tick (h : StrideOk idleproc s) (p : P) :
    StrideOk idleproc (s.sched_class_proc_tick idleproc p) := by
  have hframe : ∀ t : StrideState P, t = s.sched_class_proc_tick idleproc p →
      t.lab6_stride = s.lab6_stride ∧ t.trueStride = s.trueStride ∧
        t.lab6_run_pool = s.lab6_run_pool ∧ t.rq = s.rq ∧ t.state = s.state ∧
        t.current = s.current ∧ t.newcomers = s.newcomers := by
    rintro t rfl
    unfold sched_class_proc_tick
    by_cases hpi : p ≠ idleproc
    · rw [if_pos hpi]
      unfold stride_proc_tick
      by_cases hslice : 0 < s.time_slice p
      · simp only [if_pos hslice]
        split <;> exact ⟨rfl, rfl, rfl, rfl, rfl, rfl, rfl⟩
      · simp only [if_neg hslice]
        split <;> exact ⟨rfl, rfl, rfl, rfl, rfl, rfl, rfl⟩
    · rw [if_neg hpi]
      exact ⟨rfl, rfl, rfl, rfl, rfl, rfl, rfl⟩
  obtain ⟨h₁, h₂, h₃, h₄, h₅, h₆, h₇⟩ := hframe _ rfl
  exact h.congr (h.pool.congr h₁ h₂ h₃ h₄) h₅ h₆ h₂ h₃ h₇

/-- A step that meets the condition keeps the invariant. -/
theorem StrideOk.step (h : StrideOk idleproc s) {op : StrideOp P} (hen : op.Enabled idleproc s)
    (hmeets : Meets idleproc s op) (hok : op.run idleproc s = .ok s') : StrideOk idleproc s' := by
  cases hpick : Schedule.picking idleproc s op with
  | some t =>
      rw [run_of_picking hpick] at hok
      obtain rfl := Except.ok.inj hok
      obtain ⟨hpool, hidle, hmem⟩ := h.picking hen hmeets hpick
      exact hpool.pickNext hidle hmem
  | none =>
      cases op with
      | fork proc =>
          have halloc := h.alloc hen.2
          refine halloc.wakeup ?_ ?_ hok
          · rw [show (s.alloc_proc proc).state proc = .uninit from Function.update_self ..]
            simp
          · -- the new process has the stride 0, and it is not in the queue
            intro q hq
            have hqp : q ≠ proc := by
              rintro rfl
              have hrun := ((h.mem q).mp hq).1
              rcases hen.2 with hst | hst <;> rw [hst] at hrun <;> cases hrun
            rw [show (s.alloc_proc proc).trueStride proc = 0 from Function.update_self ..,
              show (s.alloc_proc proc).trueStride q = s.trueStride q from
                Function.update_of_ne hqp ..]
            exact hmeets q hq
      | wake proc =>
          refine h.wakeup ?_ hmeets hok
          rw [show s.state proc = .sleeping from hen]
          simp
      | yield =>
          obtain rfl := Except.ok.inj hok
          exact h.congr (h.pool.congr rfl rfl rfl rfl) rfl rfl rfl rfl rfl
      | setPriority priority =>
          obtain rfl := Except.ok.inj hok
          exact h.congr (h.pool.congr rfl rfl rfl rfl) rfl rfl rfl rfl rfl
      | tick =>
          obtain rfl := Except.ok.inj hok
          exact h.tick s.current
      | sleep | exit | schedule => cases hpick

/-! ### Runs -/

/-- Behind `sched_init` and the first part of `proc_init` the queue is empty. -/
theorem StrideOk.boot (s : StrideState P) (max_time_slice : Int) :
    StrideOk idleproc (s.boot idleproc max_time_slice) := by
  refine ⟨⟨fun _ => rfl, Multiset.nodup_zero, fun p => ?_, trivial, ?_⟩, ?_, ?_, fun p => ?_, ?_⟩
  · exact iff_of_false (by simp [StrideState.boot]) (Multiset.notMem_zero p)
  · exact fun p hp => absurd hp (Multiset.notMem_zero p)
  · exact if_pos rfl
  · exact if_pos rfl
  · refine iff_of_false (Multiset.notMem_zero p) ?_
    rintro ⟨hrun, hpc, -⟩
    have hstate : (s.boot idleproc max_time_slice).state p = .uninit := if_neg hpc
    rw [hstate] at hrun
    cases hrun
  · exact fun hne => absurd rfl hne

/-- The invariant holds in every state of a run that meets the condition. -/
theorem StrideOk.of_run (hrun : StrideRun idleproc (Meets idleproc) s) : StrideOk idleproc s := by
  induction hrun with
  | init s₀ max_time_slice initproc hne hok =>
      have hboot : StrideOk idleproc (s₀.boot idleproc max_time_slice) :=
        StrideOk.boot s₀ max_time_slice
      have hst : (s₀.boot idleproc max_time_slice).state initproc = .uninit := if_neg hne
      refine (hboot.alloc (Or.inl hst)).wakeup ?_ ?_ hok
      · rw [show (alloc_proc _ initproc).state initproc = .uninit from Function.update_self ..]
        simp
      · exact fun q hq => absurd hq (Multiset.notMem_zero q)
  | step op _ hen hmeets hok ih => exact ih.step hen hmeets hok

/-- In every run whose steps meet the condition the comparison is right for the queue, and so it is
in the state in which a further step picks. -/
theorem stride_sound (hrun : StrideRun idleproc (Meets idleproc) s) :
    Sound s ∧ ∀ op t, op.Enabled idleproc s → Meets idleproc s op →
      picking idleproc s op = some t → Sound t :=
  ⟨(StrideOk.of_run hrun).pool.sound, fun _ _ hen hmeets ht =>
    ((StrideOk.of_run hrun).picking hen hmeets ht).1.sound⟩

/-! ### A run that breaks the order -/

/-- The kernel before `sched_init`, with the pids for the processes. -/
def beforeInit : StrideState Nat where
  state _ := .uninit
  need_resched _ := false
  time_slice _ := 0
  rq _ := false
  lab6_stride _ := 0
  lab6_priority _ := 0
  lab6_run_pool := .nil
  proc_num := 0
  max_time_slice := 0
  current := 0
  trueStride _ := 0
  newcomers := []

/-- The state behind `proc_init`. -/
def afterInit : Except Halt (StrideState Nat) :=
  ((beforeInit.boot 0 20).alloc_proc 1).wakeup_proc 0 1

instance (a b : Nat) : Decidable (Near a b) := inferInstanceAs (Decidable (_ ∧ _))

/-- `initproc` forks 2 and 3, the second of them sets its priority, and the processes take turns. In
front of the last pick 2 is one `BIG_STRIDE` ahead of the other two. -/
theorem stride_sound_threeProcs : ∃ s t : StrideState Nat, StrideRun 0 (Meets 0) s ∧
    picking 0 s .schedule = some t ∧ t.lab6_run_pool.entries = {1, 2, 3} ∧
    t.trueStride 1 + BIG_STRIDE.toNat = t.trueStride 2 ∧ t.proc_stride_comp_f 2 1 = 1 ∧
    t.stride_pick_next.1 = some 1 ∧ Sound s ∧ Sound t := by
  have h₀ : StrideRun 0 (Meets 0) _ := .init beforeInit 20 1 (by decide) rfl
  have h₁ : StrideRun 0 (Meets 0) _ :=
    h₀.step .schedule trivial (fun hne => absurd rfl hne) rfl
  have h₂ : StrideRun 0 (Meets 0) _ := h₁.step (.fork 2) (by decide) (by unfold Meets; decide) rfl
  have h₃ : StrideRun 0 (Meets 0) _ := h₂.step (.fork 3) (by decide) (by unfold Meets; decide) rfl
  have h₄ : StrideRun 0 (Meets 0) _ := h₃.step .schedule trivial (by unfold Meets; decide) rfl
  have h₅ : StrideRun 0 (Meets 0) _ := h₄.step (.setPriority 2) (by decide) trivial rfl
  have h₆ : StrideRun 0 (Meets 0) _ := h₅.step .schedule trivial (by unfold Meets; decide) rfl
  have h₇ : StrideRun 0 (Meets 0) _ := h₆.step .schedule trivial (by unfold Meets; decide) rfl
  have hsound := stride_sound h₇
  refine ⟨_, _, h₇, rfl, ?_, ?_, ?_, ?_, hsound.1,
    hsound.2 .schedule _ trivial (by unfold Meets; decide) rfl⟩
  all_goals decide

/-- The steps in turn, as long as they are enabled. -/
def steps : List (StrideOp Nat) → StrideState Nat → Option (StrideState Nat)
  | [], s => some s
  | op :: ops, s =>
      if op.Enabled 0 s then
        match op.run 0 s with
        | .ok s => steps ops s
        | .error _ => none
      else none

/-- Steps in turn are a run. -/
theorem run_of_steps {s' : StrideState Nat} : ∀ (ops : List (StrideOp Nat)) (s : StrideState Nat),
    StrideRun 0 (fun _ _ => True) s → steps ops s = some s' → StrideRun 0 (fun _ _ => True) s' := by
  intro ops
  induction ops with
  | nil =>
      intro s hrun hs
      obtain rfl := Option.some.inj hs
      exact hrun
  | cons op ops ih =>
      intro s hrun hs
      unfold steps at hs
      split at hs
      · rename_i hen
        split at hs
        · rename_i s₁ hok
          exact ih s₁ (hrun.step op hen trivial hok) hs
        · cases hs
      · cases hs

/-- `initproc` forks 2 and 2 forks 3. In the end 3 runs; 2 has been picked three times and
`initproc` once. -/
def shortRun : List (StrideOp Nat) :=
  [.schedule, .fork 2, .schedule, .schedule, .fork 3, .schedule, .schedule]

/-- Without the condition: the new process 3 runs with the stride `BIG_STRIDE`, 2 waits with three
times that and `initproc` with `BIG_STRIDE`; the comparison has 2 before `initproc`, and 2 is
picked. -/
theorem stride_unsound : ∃ s : StrideState Nat, StrideRun 0 (fun _ _ => True) s ∧
    1 ∈ s.lab6_run_pool.entries ∧ 2 ∈ s.lab6_run_pool.entries ∧
    s.trueStride 1 < s.trueStride 2 ∧ s.proc_stride_comp_f 2 1 = -1 ∧
    s.stride_pick_next.1 = some 2 ∧ ¬ Sound s := by
  have hini : ∃ s, afterInit = .ok s ∧ ∃ s', steps shortRun s = some s' ∧
      1 ∈ s'.lab6_run_pool.entries ∧ 2 ∈ s'.lab6_run_pool.entries ∧
      s'.trueStride 1 < s'.trueStride 2 ∧ s'.proc_stride_comp_f 2 1 = -1 ∧
      s'.stride_pick_next.1 = some 2 := by
    refine ⟨_, rfl, _, rfl, ?_⟩
    decide
  obtain ⟨s, hs, s', hsteps, h₁, h₂, hlt, hcomp, hpick⟩ := hini
  refine ⟨s', run_of_steps shortRun s (.init beforeInit 20 1 (by decide) hs) hsteps, h₁, h₂, hlt,
    hcomp, hpick, fun hsound => ?_⟩
  have hle := (hsound.pick 2 hpick).2 1 h₁
  omega

end Ucore.Proofs.Schedule
