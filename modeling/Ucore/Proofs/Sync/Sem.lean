import Ucore.Sync.Sem
import Mathlib

/-!
# `Ucore.Proofs.Sync.Sem`: no permit is lost or doubled

`SemOk` is the invariant of a semaphore with the log of what has happened at it. A permit is in the
value, or it has been taken by a `down` that has ended, or it is with a process that has been woken
up and has not run since. The processes that had to wait are those that have been woken up and then
those in the queue, in this order.

## The invariant

The value is a C `int`. `SemOk` says that it is not negative, and that it is zero while somebody
waits. It counts the permits in two ways: the value at the start and the ups, against the value now,
the downs that have ended, and the processes that have been woken up. A process in the queue sleeps
with `WT_KSEM`, and one that has been woken up is runnable.

Two things are asked of a run. The start value must not be negative, and no `up` may find the
largest `int` in the value. The second is a condition on the state in front of the `up`: only an
`up` that finds nobody waiting adds to the value.

## The steps

`semUp_cases` and `semDown_cases` list what the two calls do, and `SemOk` is kept in each case by a
lemma of its own (`SemOk.setValue`, `SemOk.wake`, `SemOk.wait`, `SemOk.resume`). A `down` that waits
has two sections, the part in front of its `schedule()` and the part behind it. The assertion
between them holds because a process that has been woken up keeps its `wakeup_flags`.

`semaphore_correct` states all of this of every run. `semaphore_correct_threeProcs` is a run in
which two processes wait and are woken up in turn, and `semaphore_below_zero` are two starts that
break it.
-/

set_option autoImplicit false

namespace Ucore.Proofs.Sync

open Ucore.Lib Ucore.Schedule Ucore.Sync

variable {P : Type}

/-- The number of ups in a log. -/
def ups : List (SemEvent P) → Nat
  | [] => 0
  | .up :: log => ups log + 1
  | .wrap :: log => ups log + 1
  | .wake _ :: log => ups log + 1
  | _ :: log => ups log

/-- The number of downs in a log that have ended, `try_down` included. -/
def downs : List (SemEvent P) → Nat
  | [] => 0
  | .down :: log => downs log + 1
  | .resume _ :: log => downs log + 1
  | _ :: log => downs log

/-- The processes that had to wait, the first one first. -/
def waits : List (SemEvent P) → List P
  | [] => []
  | .wait p :: log => waits log ++ [p]
  | _ :: log => waits log

/-- The processes that have been granted a unit after they had to wait, the first one first. -/
def wakes : List (SemEvent P) → List P
  | [] => []
  | .wake p :: log => wakes log ++ [p]
  | _ :: log => wakes log

/-- The invariant of a semaphore. -/
structure SemOk (value : BitVec 32) (log : List (SemEvent P)) (s : SemState P) : Prop where
  nonneg : 0 ≤ s.value.toInt
  full : 0 < s.value.toInt → s.wait_queue = []
  nodup : s.wait_queue.Nodup
  waiting : ∀ p ∈ s.wait_queue,
    s.inDown p = true ∧ (s.proc p).state = .sleeping ∧ (s.proc p).wait_state = WT_KSEM
  woken : ∀ p, s.Woken p → (s.proc p).state = .runnable ∧ s.wakeup_flags p = WT_KSEM
  permits : ∃ ws : Finset P, (∀ p, p ∈ ws ↔ s.Woken p) ∧
    value.toInt + ups log = s.value.toInt + downs log + ws.card
  fifo : waits log = wakes log ++ s.wait_queue

variable [DecidableEq P] {value : BitVec 32} {log : List (SemEvent P)} {s s' : SemState P} {p : P}

/-! ### The sections -/

/-- `up` returns. It adds to the value, or it wakes the first process of the queue. -/
theorem semUp_cases (hok : SemOk value log s) :
    s.wait_queue = [] ∧ s.up WT_KSEM = .ok { s with value := s.value + 1 } ∨
    ∃ p queue, s.wait_queue = p :: queue ∧ s.up WT_KSEM = .ok
      { s with
        wait_queue := queue
        wakeup_flags := Function.update s.wakeup_flags p WT_KSEM
        proc := Function.update s.proc p (s.proc p).wakeup } := by
  unfold SemState.up
  cases hqueue : s.wait_queue with
  | nil => exact Or.inl ⟨rfl, rfl⟩
  | cons p queue =>
      have hmem : p ∈ s.wait_queue := by
        rw [hqueue]
        exact List.mem_cons_self
      obtain ⟨-, hstate, hwait⟩ := hok.waiting p hmem
      refine Or.inr ⟨p, queue, rfl, ?_⟩
      dsimp only
      rw [if_pos hwait]
      unfold SemState.wakeup_wait SemState.wait_queue_del
      rw [if_pos hmem, hqueue, List.erase_cons_head]
      show SemState.wakeup_proc p _ = _
      unfold SemState.wakeup_proc
      dsimp only
      rw [hstate, if_neg (by simp), if_pos (by simp)]
      rfl

/-- A `down` takes from the value, or the process is the last in the queue. -/
theorem semDown_cases (hok : SemOk value log s) (hout : s.inDown p = false) :
    0 < s.value.toInt ∧ s.down p WT_KSEM = .ok { s with value := s.value - 1 } ∨
    s.value.toInt = 0 ∧ p ∉ s.wait_queue ∧ s.down p WT_KSEM = .ok
      { s with
        wait_queue := s.wait_queue ++ [p]
        wakeup_flags := Function.update s.wakeup_flags p WT_INTERRUPTED
        proc := Function.update s.proc p
          { s.proc p with state := .sleeping, wait_state := WT_KSEM }
        inDown := Function.update s.inDown p true } := by
  have hnot : p ∉ s.wait_queue := by
    intro hmem
    have hin := (hok.waiting p hmem).1
    rw [hout] at hin
    cases hin
  unfold SemState.down
  by_cases hpos : 0 < s.value.toInt
  · rw [if_pos hpos]
    exact Or.inl ⟨hpos, rfl⟩
  · have hzero := le_antisymm (not_lt.mp hpos) hok.nonneg
    refine Or.inr ⟨hzero, hnot, ?_⟩
    rw [if_neg hpos]
    unfold SemState.wait_current_set SemState.wait_queue_add
    dsimp only
    rw [if_neg hnot]
    rfl

/-- The second section of `down` returns zero. -/
theorem downEnd_eq (hok : SemOk value log s) (hin : s.inDown p = true)
    (hrun : (s.proc p).state = .runnable) : p ∉ s.wait_queue ∧
      s.downEnd p WT_KSEM = .ok { s with inDown := Function.update s.inDown p false } := by
  have hnot : p ∉ s.wait_queue := by
    intro hmem
    have hstate := (hok.waiting p hmem).2.1
    rw [hrun] at hstate
    cases hstate
  refine ⟨hnot, ?_⟩
  unfold SemState.downEnd SemState.wait_current_del
  rw [if_neg hnot]
  show (if s.wakeup_flags p = WT_KSEM then _ else _) = _
  rw [if_pos (hok.woken p ⟨hin, hnot⟩).2]
  rfl

/-! ### The invariant -/

omit [DecidableEq P] in
/-- A change of the value alone. -/
theorem SemOk.setValue (e : SemEvent P) {v : BitVec 32} (hok : SemOk value log s)
    (hempty : 0 < v.toInt → s.wait_queue = []) (hnonneg : 0 ≤ v.toInt) (hwaits : waits (e :: log) = waits log)
    (hwakes : wakes (e :: log) = wakes log)
    (hcount : ups (e :: log) + s.value.toInt + downs log =
      ups log + v.toInt + downs (e :: log)) :
    SemOk value (e :: log) { s with value := v } where
  nonneg := hnonneg
  full := hempty
  nodup := hok.nodup
  waiting := hok.waiting
  woken := hok.woken
  permits := by
    obtain ⟨ws, hmem, hsum⟩ := hok.permits
    refine ⟨ws, hmem, ?_⟩
    show value.toInt + ups (e :: log) = v.toInt + downs (e :: log) + ws.card
    omega
  fifo := by
    rw [hwaits, hwakes]
    exact hok.fifo

/-- A process leaves the queue with a unit. -/
theorem SemOk.wake {queue : List P} (hok : SemOk value log s) (hqueue : s.wait_queue = p :: queue) :
    SemOk value (.wake p :: log)
      { s with
        wait_queue := queue
        wakeup_flags := Function.update s.wakeup_flags p WT_KSEM
        proc := Function.update s.proc p (s.proc p).wakeup } := by
  have hnodup := hok.nodup
  rw [hqueue] at hnodup
  obtain ⟨hp, hnodup⟩ := List.nodup_cons.mp hnodup
  have hin := (hok.waiting p (by rw [hqueue]; exact List.mem_cons_self)).1
  -- Somebody waits, so there is no unit.
  have hzero : s.value.toInt = 0 := by
    by_contra hne
    have hpos : 0 < s.value.toInt := lt_of_le_of_ne hok.nonneg (Ne.symm hne)
    have hnil := hok.full hpos
    rw [hqueue] at hnil
    cases hnil
  refine ⟨hok.nonneg, ?_, hnodup, ?_, ?_, ?_, ?_⟩
  · intro hpos
    replace hpos : 0 < s.value.toInt := hpos
    omega
  · intro q hq
    replace hq : q ∈ queue := hq
    have hne : q ≠ p := by
      rintro rfl
      exact hp hq
    have hold := hok.waiting q (by rw [hqueue]; exact List.mem_cons_of_mem _ hq)
    show s.inDown q = true ∧ (Function.update s.proc p _ q).state = _ ∧
      (Function.update s.proc p _ q).wait_state = _
    rw [Function.update_of_ne hne]
    exact hold
  -- Woken: `p` from now on, and those who were before.
  · rintro q ⟨hqin, hq⟩
    show (Function.update s.proc p _ q).state = _ ∧ Function.update s.wakeup_flags p _ q = _
    by_cases hqp : q = p
    · subst hqp
      rw [Function.update_self, Function.update_self]
      exact ⟨rfl, rfl⟩
    · rw [Function.update_of_ne hqp, Function.update_of_ne hqp]
      refine hok.woken q ⟨hqin, ?_⟩
      rw [hqueue]
      simp only [List.mem_cons, not_or]
      exact ⟨hqp, hq⟩
  -- The unit of this `up` is with `p`, so one process more is counted among the woken ones.
  · obtain ⟨ws, hmem, hsum⟩ := hok.permits
    have hnew : p ∉ ws := by
      rw [hmem]
      intro hw
      apply hw.2
      rw [hqueue]
      exact List.mem_cons_self
    refine ⟨insert p ws, ?_, ?_⟩
    · intro q
      rw [Finset.mem_insert, hmem]
      show q = p ∨ s.inDown q = true ∧ q ∉ s.wait_queue ↔ s.inDown q = true ∧ q ∉ queue
      rw [hqueue]
      by_cases hqp : q = p
      · subst hqp
        simp [hin, hp]
      · simp [hqp]
    · rw [Finset.card_insert_of_notMem hnew]
      show value.toInt + ups (.wake p :: log) = s.value.toInt + downs log + _
      have hups : ups (.wake p :: log) = ups log + 1 := rfl
      push_cast
      omega
  · show waits log = (wakes log ++ [p]) ++ queue
    rw [hok.fifo, hqueue, List.append_assoc]
    rfl

/-- A process goes to sleep at the end of the queue. -/
theorem SemOk.wait (hok : SemOk value log s) (hzero : s.value.toInt = 0) (hp : p ∉ s.wait_queue)
    (hout : s.inDown p = false) :
    SemOk value (.wait p :: log)
      { s with
        wait_queue := s.wait_queue ++ [p]
        wakeup_flags := Function.update s.wakeup_flags p WT_INTERRUPTED
        proc := Function.update s.proc p
          { s.proc p with state := .sleeping, wait_state := WT_KSEM }
        inDown := Function.update s.inDown p true } := by
  -- `p` comes into its `down` and into the queue at once, so that the woken processes are the same.
  have hwoken : ∀ q, (Function.update s.inDown p true q = true ∧ q ∉ s.wait_queue ++ [p]) ↔
      s.Woken q := by
    intro q
    by_cases hqp : q = p
    · subst hqp
      simp [SemState.Woken, hout]
    · simp [SemState.Woken, hqp]
  refine ⟨hok.nonneg, ?_, ?_, ?_, ?_, ?_, ?_⟩
  · intro hpos
    replace hpos : 0 < s.value.toInt := hpos
    omega
  · exact List.nodup_append.mpr ⟨hok.nodup, List.nodup_singleton p, by
      intro a ha b hb heq
      rw [List.mem_singleton] at hb
      exact hp (hb ▸ heq ▸ ha)⟩
  · intro q hq
    show Function.update s.inDown p true q = true ∧ (Function.update s.proc p _ q).state = _ ∧
      (Function.update s.proc p _ q).wait_state = _
    by_cases hqp : q = p
    · subst hqp
      simp
    · rw [Function.update_of_ne hqp, Function.update_of_ne hqp]
      rcases List.mem_append.mp hq with hq | hq
      · exact hok.waiting q hq
      · exact absurd (List.mem_singleton.mp hq) hqp
  · intro q hq
    have hold := (hwoken q).mp hq
    have hqp : q ≠ p := by
      rintro rfl
      have hin := hold.1
      rw [hout] at hin
      cases hin
    show (Function.update s.proc p _ q).state = _ ∧ Function.update s.wakeup_flags p _ q = _
    rw [Function.update_of_ne hqp, Function.update_of_ne hqp]
    exact hok.woken q hold
  · obtain ⟨ws, hmem, hsum⟩ := hok.permits
    refine ⟨ws, ?_, hsum⟩
    intro q
    rw [hmem]
    exact (hwoken q).symm
  · show waits log ++ [p] = wakes log ++ (s.wait_queue ++ [p])
    rw [hok.fifo, List.append_assoc]

/-- A process that has been woken up takes its unit. -/
theorem SemOk.resume (hok : SemOk value log s) (hin : s.inDown p = true)
    (hp : p ∉ s.wait_queue) :
    SemOk value (.resume p :: log)
      { s with inDown := Function.update s.inDown p false } := by
  have hwoken : ∀ q, (Function.update s.inDown p false q = true ∧ q ∉ s.wait_queue) ↔
      q ≠ p ∧ s.Woken q := by
    intro q
    by_cases hqp : q = p
    · subst hqp
      simp
    · simp [SemState.Woken, hqp]
  refine ⟨hok.nonneg, hok.full, hok.nodup, ?_, ?_, ?_, hok.fifo⟩
  · intro q hq
    have hqp : q ≠ p := by
      rintro rfl
      exact hp hq
    show Function.update s.inDown p false q = true ∧ _
    rw [Function.update_of_ne hqp]
    exact hok.waiting q hq
  · intro q hq
    exact hok.woken q ((hwoken q).mp hq).2
  · obtain ⟨ws, hmem, hsum⟩ := hok.permits
    have hpw : p ∈ ws := (hmem p).mpr ⟨hin, hp⟩
    refine ⟨ws.erase p, ?_, ?_⟩
    · intro q
      rw [Finset.mem_erase, hmem]
      exact (hwoken q).symm
    · have hcard := Finset.card_erase_add_one hpw
      show value.toInt + ups log = s.value.toInt + downs (.resume p :: log) + _
      have hdowns : downs (.resume p :: log) = downs log + 1 := rfl
      omega

/-- A process outside of `down` changes. -/
theorem SemOk.other (hok : SemOk value log s) (hout : s.inDown p = false) (proc : ProcStruct) :
    SemOk value (.other :: log) (s.setProc p proc) := by
  have hne : ∀ q, s.inDown q = true → (s.setProc p proc).proc q = s.proc q := by
    intro q hq
    apply Function.update_of_ne
    rintro rfl
    rw [hout] at hq
    cases hq
  refine ⟨hok.nonneg, hok.full, hok.nodup, ?_, ?_, hok.permits, hok.fifo⟩
  · intro q hq
    have hold := hok.waiting q hq
    rw [hne q hold.1]
    exact hold
  · intro q hq
    rw [hne q hq.1]
    exact hok.woken q hq

/-- One more than a value below the largest `int`. -/
theorem toInt_add_one {v : BitVec 32} (h : v ≠ BitVec.intMax 32) :
    (v + 1).toInt = v.toInt + 1 := by
  have hle : v.toInt ≤ 2147483647 := BitVec.toInt_le
  have hge : -2147483648 ≤ v.toInt := BitVec.le_toInt v
  have hne : v.toInt ≠ 2147483647 := fun heq => h (BitVec.toInt_inj.mp heq)
  rw [BitVec.toInt_add]
  exact Int.bmod_eq_of_le_mul_two (show (-4294967296 : Int) ≤ (v.toInt + 1) * 2 by omega)
    (show (v.toInt + 1) * 2 < (4294967296 : Int) by omega)

/-- One less than a positive value. -/
theorem toInt_sub_one {v : BitVec 32} (h : 0 < v.toInt) : (v - 1).toInt = v.toInt - 1 := by
  have hle : v.toInt ≤ 2147483647 := BitVec.toInt_le
  rw [BitVec.toInt_sub]
  exact Int.bmod_eq_of_le_mul_two (show (-4294967296 : Int) ≤ (v.toInt - 1) * 2 by omega)
    (show (v.toInt - 1) * 2 < (4294967296 : Int) by omega)

/-- The invariant holds in every run from a value that is not negative, as long as no `up` finds the
largest `int` and nobody waiting. -/
theorem semOk_of_run (hvalue : 0 ≤ value.toInt) (hrun : SemRun value log s) (hlog : .wrap ∉ log) :
    SemOk value log s := by
  -- One case for each kind of call, by the lemma about what it does to `SemOk`.
  induction hrun with
  | init s hout =>
      have hwoken : ∀ p, ¬ (s.sem_init value).Woken p := by
        intro p hp
        have hin : s.inDown p = true := hp.1
        rw [hout] at hin
        cases hin
      refine ⟨hvalue, fun _ => rfl, List.nodup_nil, ?_, ?_, ⟨∅, ?_, ?_⟩, rfl⟩
      · intro p hp
        cases hp
      · exact fun p hp => absurd hp (hwoken p)
      · intro p
        simp [hwoken p]
      · show value.toInt + (0 : Nat) = value.toInt + (0 : Nat) + (0 : Nat)
        omega
  | @up log s s' p _ _ _ hup ih =>
      obtain ⟨hevent, hlog⟩ := not_or.mp (List.mem_cons.not.mp hlog)
      replace ih := ih hlog
      rcases semUp_cases ih with ⟨hqueue, heq⟩ | ⟨q, queue, hqueue, heq⟩
      -- Nobody waits, so the value goes up, and it does not wrap since `.wrap` is not in the log.
      · cases heq.symm.trans hup
        have hadd : upEvent s = if s.value = BitVec.intMax 32 then .wrap else .up := by
          unfold upEvent
          rw [hqueue]
        have hmax : s.value ≠ BitVec.intMax 32 := by
          intro heq
          rw [hadd, if_pos heq] at hevent
          exact hevent rfl
        rw [hadd, if_neg hmax]
        have hups : ups ((.up : SemEvent P) :: log) = ups log + 1 := rfl
        have hdowns : downs ((.up : SemEvent P) :: log) = downs log := rfl
        have hnonneg := ih.nonneg
        have hone := toInt_add_one hmax
        exact ih.setValue .up (fun _ => hqueue) (by omega) rfl rfl (by omega)
      -- The first of the queue gets the unit, and the value stays.
      · cases heq.symm.trans hup
        have hwake : upEvent s = .wake q := by
          unfold upEvent
          rw [hqueue]
        rw [hwake]
        exact ih.wake hqueue
  | @down log s s' p _ _ hout hdown ih =>
      replace ih := ih fun hmem => hlog (List.mem_cons_of_mem _ hmem)
      unfold downEvent
      rcases semDown_cases ih hout with ⟨hpos, heq⟩ | ⟨hzero, hp, heq⟩
      · cases heq.symm.trans hdown
        rw [if_pos hpos]
        have hups : ups ((.down : SemEvent P) :: log) = ups log := rfl
        have hdowns : downs ((.down : SemEvent P) :: log) = downs log + 1 := rfl
        have hone := toInt_sub_one hpos
        exact ih.setValue .down (fun _ => ih.full hpos) (by omega) rfl rfl (by omega)
      · cases heq.symm.trans hdown
        rw [if_neg (by omega)]
        exact ih.wait hzero hp hout
  | @try_down log s p _ _ _ ih =>
      replace ih := ih fun hmem => hlog (List.mem_cons_of_mem _ hmem)
      unfold SemState.try_down
      by_cases hpos : 0 < s.value.toInt
      · rw [if_pos hpos, if_pos rfl]
        have hups : ups ((.down : SemEvent P) :: log) = ups log := rfl
        have hdowns : downs ((.down : SemEvent P) :: log) = downs log + 1 := rfl
        have hone := toInt_sub_one hpos
        exact ih.setValue .down (fun _ => ih.full hpos) (by omega) rfl rfl (by omega)
      · rw [if_neg hpos, if_neg (by simp)]
        exact ih.setValue .other ih.full ih.nonneg rfl rfl rfl
  -- The second half of a `down` that has slept.
  | downEnd p _ hrunnable hin hend ih =>
      replace ih := ih fun hmem => hlog (List.mem_cons_of_mem _ hmem)
      obtain ⟨hp, heq⟩ := downEnd_eq ih hin hrunnable
      cases heq.symm.trans hend
      exact ih.resume hin hp
  | other p proc _ hout ih =>
      exact (ih fun hmem => hlog (List.mem_cons_of_mem _ hmem)).other hout proc

/-- **A semaphore neither loses nor doubles a permit.** In every state of every run of ups, downs and
`try_down`s by any processes, from an initial value that is not negative, and as long as no `up`
adds to the largest `int`: the value is not negative, and it is positive only when nobody waits. The
initial value and the ups make up the value, the downs that have ended and the processes that have
been woken up and have not run since. Whoever had to wait is granted a unit in the order of waiting,
and is runnable from then on. No assertion fails: `up` returns, and so does `down`, before and after
the wait. -/
theorem semaphore_correct (hvalue : 0 ≤ value.toInt) (hrun : SemRun value log s)
    (hlog : .wrap ∉ log) :
    0 ≤ s.value.toInt ∧ (0 < s.value.toInt → s.wait_queue = []) ∧
    (∃ ws : Finset P, (∀ p, p ∈ ws ↔ s.Woken p) ∧
      value.toInt + ups log = s.value.toInt + downs log + ws.card) ∧
    waits log = wakes log ++ s.wait_queue ∧
    (∀ p ∈ s.wait_queue, s.inDown p = true ∧ (s.proc p).state = .sleeping) ∧
    (∀ p, s.Woken p → (s.proc p).state = .runnable) ∧
    (∃ s', s.up WT_KSEM = .ok s') ∧
    (∀ p, s.inDown p = false → ∃ s', s.down p WT_KSEM = .ok s') ∧
    (∀ p, s.inDown p = true → (s.proc p).state = .runnable →
      ∃ s', s.downEnd p WT_KSEM = .ok s') := by
  have hok := semOk_of_run hvalue hrun hlog
  refine ⟨hok.nonneg, hok.full, hok.permits, hok.fifo,
    fun p hp => ⟨(hok.waiting p hp).1, (hok.waiting p hp).2.1⟩, fun p hp => (hok.woken p hp).1, ?_,
    ?_, ?_⟩
  · rcases semUp_cases hok with ⟨-, heq⟩ | ⟨q, queue, -, heq⟩
    · exact ⟨_, heq⟩
    · exact ⟨_, heq⟩
  · intro p hout
    rcases semDown_cases hok hout with ⟨-, heq⟩ | ⟨-, -, heq⟩
    · exact ⟨_, heq⟩
    · exact ⟨_, heq⟩
  · intro p hin hrunnable
    exact ⟨_, (downEnd_eq hok hin hrunnable).2⟩

/-- Runnable processes, none of them in `down`. -/
def noWaiters : SemState Nat where
  value := 0
  wait_queue := []
  wakeup_flags _ := 0
  proc _ :=
    { state := .runnable, wait_state := 0, need_resched := false, time_slice := 0,
      exiting := false }
  inDown _ := false

/-- With one unit, the first process takes it, and the second and the third wait. The first one
gives it back, and the second one has it when it runs again. -/
theorem semaphore_correct_threeProcs : ∃ s t : SemState Nat,
    SemRun 1 [.wake 1, .wait 2, .wait 1, .down] s ∧ s.wait_queue = [2] ∧ s.Woken 1 ∧
    (s.proc 1).state = .runnable ∧ (s.proc 2).state = .sleeping ∧
    (∃ ws : Finset Nat, (∀ p, p ∈ ws ↔ s.Woken p) ∧ (1 : Int) + 1 = 0 + 1 + ws.card) ∧
    s.downEnd 1 WT_KSEM = .ok t ∧ t.inDown 1 = false := by
  have h₀ : SemRun 1 [] (noWaiters.sem_init 1) := .init noWaiters fun _ => rfl
  have h₁ : SemRun 1 [.down] _ := h₀.down 0 rfl rfl rfl
  have h₂ : SemRun 1 [.wait 1, .down] _ := h₁.down 1 rfl rfl rfl
  have h₃ : SemRun 1 [.wait 2, .wait 1, .down] _ := h₂.down 2 rfl rfl rfl
  have h₄ : SemRun 1 [.wake 1, .wait 2, .wait 1, .down] _ := h₃.up 0 rfl rfl rfl
  obtain ⟨-, -, hpermits, -, hwaiting, hwoken, -, -, -⟩ :=
    semaphore_correct (by decide) h₄ (by simp)
  have hone := hwoken 1 ⟨rfl, by decide⟩
  exact ⟨_, _, h₄, rfl, ⟨rfl, by decide⟩, hone, (hwaiting 2 (by decide)).2, hpermits, rfl, rfl⟩

/-- A value that starts below zero stays there until an `up`, and an `up` at the largest `int` makes
the value the smallest one. -/
theorem semaphore_below_zero :
    ¬ (∀ (value : BitVec 32) (log : List (SemEvent Nat)) (s : SemState Nat), SemRun value log s →
      0 ≤ s.value.toInt) ∧
    ∃ s : SemState Nat, SemRun (BitVec.intMax 32) [.wrap] s ∧ s.value.toInt = -2147483648 := by
  have hinit : SemRun (-1) [] (noWaiters.sem_init (-1)) := .init noWaiters fun _ => rfl
  have hmax : SemRun (BitVec.intMax 32) [] (noWaiters.sem_init (BitVec.intMax 32)) :=
    .init noWaiters fun _ => rfl
  exact ⟨fun hall => absurd (hall _ _ _ hinit) (by decide), _, hmax.up 0 rfl rfl rfl, by decide⟩

end Ucore.Proofs.Sync
