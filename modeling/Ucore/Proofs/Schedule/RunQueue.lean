import Ucore.Schedule.RunQueue

/-!
# `Ucore.Proofs.Schedule.RunQueue`: the run queue is a queue

`RqOk` reads the processes of the run queue off the links, and says that a process that is not in
the queue is on no list. Each function of the round-robin class is one lemma: a process is put
behind all others, and the first one is taken out.

A process that is not in the queue has a `run_link` that is a list of its own, which is what
`list_empty(&(proc->run_link))` asks (`RqOk.listEmpty_iff`). `RR_dequeue` leaves the link in this
state, and a new process gets it from `alloc_proc` (`RqOk.add`). So the assertions of `RR_enqueue`
and `RR_dequeue` are about membership.

`alloc` are the processes that there are. A struct that is freed leaves it (`RqOk.shrink`), and must
not be in the queue.
-/

set_option autoImplicit false
set_option linter.unusedSectionVars false

namespace Ucore.Proofs.Schedule

open Ucore.Lib Ucore.Lib.Links Ucore.Libs Ucore.Schedule

variable {P : Type} [DecidableEq P] {rq rq' : RunQueue P} {alloc queue rest : List P} {p : P}

/-- The queue holds `queue`, in this order; `alloc` are the processes that there are. -/
structure RqOk (rq : RunQueue P) (alloc queue : List P) : Prop where
  ring : rq.run_list.Ring none (queue.map some)
  sub : ∀ p ∈ queue, p ∈ alloc
  alone : ∀ p ∈ alloc, p ∉ queue → rq.run_list.next (some p) = some p
  on : ∀ p ∈ queue, rq.rq p = true
  count : rq.proc_num = queue.length
  max_pos : 0 < rq.max_time_slice
  slice : ∀ p ∈ queue, 0 < rq.time_slice p ∧ rq.time_slice p ≤ rq.max_time_slice
  nonneg : ∀ p ∈ alloc, 0 ≤ rq.time_slice p
  fifo : rq.queued = rq.dispatched ++ queue

/-- No process is twice in the run queue. -/
theorem RqOk.nodup (h : RqOk rq alloc queue) : queue.Nodup :=
  (List.nodup_cons.mp h.ring.nodup).2.of_map _

/-- `list_empty(&(proc->run_link))` is whether the process is in the queue. -/
theorem RqOk.listEmpty_iff (h : RqOk rq alloc queue) (hp : p ∈ alloc) :
    listEmpty rq.run_list (some p) = true ↔ p ∉ queue := by
  unfold listEmpty
  rw [decide_eq_true_iff]
  constructor
  · intro hself hmem
    obtain ⟨ys, zs, hqueue⟩ := List.append_of_mem hmem
    have hring := h.ring
    rw [hqueue, List.map_append, List.map_cons] at hring
    have hnext := hring.mid.1
    rw [hself] at hnext
    have hnodup := h.nodup
    rw [hqueue] at hnodup
    -- the next node is the head or stands behind `p`
    cases zs with
    | nil => cases hnext
    | cons z zs =>
        obtain rfl : p = z := Option.some.inj hnext
        exact (List.nodup_cons.mp (List.nodup_append.mp hnodup).2.1).1 List.mem_cons_self
  · exact h.alone p hp

/-- `RR_enqueue` puts a process behind all others. -/
theorem RqOk.enqueue (h : RqOk rq alloc queue) (hp : p ∈ alloc) (hnew : p ∉ queue) :
    ∃ rq', rrEnqueue rq p = .ok rq' ∧ RqOk rq' alloc (queue ++ [p]) := by
  unfold rrEnqueue
  rw [if_neg (by simpa using (h.listEmpty_iff hp).mpr hnew)]
  refine ⟨_, rfl, ?_⟩
  have hring : (listAddBefore rq.run_list none (some p)).Ring none ((queue ++ [p]).map some) := by
    have hold : rq.run_list.Ring none (queue.map some ++ []) := by
      rw [List.append_nil]
      exact h.ring
    have hadd := ring_listAddBefore (e := some p) hold (by simpa using hnew)
    simpa using hadd
  -- The slice: only that of `p` may change.
  have hslice : ∀ q ∈ alloc, q ≠ p →
      (if rq.time_slice p = 0 ∨ rq.max_time_slice < rq.time_slice p then
        Function.update rq.time_slice p rq.max_time_slice else rq.time_slice) q =
      rq.time_slice q := by
    intro q _ hqp
    split
    · exact Function.update_of_ne hqp ..
    · rfl
  -- It is set anew when it is used up or too large, and lies in the range in either case.
  have hnewslice : 0 < (if rq.time_slice p = 0 ∨ rq.max_time_slice < rq.time_slice p then
        Function.update rq.time_slice p rq.max_time_slice else rq.time_slice) p ∧
      (if rq.time_slice p = 0 ∨ rq.max_time_slice < rq.time_slice p then
        Function.update rq.time_slice p rq.max_time_slice else rq.time_slice) p ≤
        rq.max_time_slice := by
    have hpos := h.max_pos
    have hnonneg := h.nonneg p hp
    split
    · rw [Function.update_self]
      omega
    · omega
  generalize (if rq.time_slice p = 0 ∨ rq.max_time_slice < rq.time_slice p then
    Function.update rq.time_slice p rq.max_time_slice else rq.time_slice) = time_slice
    at hslice hnewslice ⊢
  -- The fields of `RqOk`, in their order.
  refine ⟨hring, ?_, ?_, ?_, ?_, h.max_pos, ?_, ?_, ?_⟩
  · intro q hq
    rcases List.mem_append.mp hq with hq | hq
    · exact h.sub q hq
    · rw [List.mem_singleton.mp hq]
      exact hp
  -- A node outside of the ring: neither of the two neighbours of the new node.
  · intro q hq hnot
    rw [List.mem_append, List.mem_singleton, not_or] at hnot
    have hlast : rq.run_list.prev none ∈ none :: queue.map some := by
      rw [h.ring.prev_head]
      exact getLastD_mem_cons ..
    have hql : some q ≠ rq.run_list.prev none := by
      intro e
      rw [← e] at hlast
      exact hnot.1 (by simpa using hlast)
    have hqp : some q ≠ some p := by simpa using hnot.2
    exact (insertBetween_next_of_ne _ hqp hql).trans (h.alone q hq hnot.1)
  · intro q hq
    show Function.update rq.rq p true q = true
    by_cases hqp : q = p
    · rw [hqp, Function.update_self]
    · rw [Function.update_of_ne hqp]
      rcases List.mem_append.mp hq with hq | hq
      · exact h.on q hq
      · exact absurd (List.mem_singleton.mp hq) hqp
  · show rq.proc_num + 1 = ((queue ++ [p]).length : Int)
    rw [h.count, List.length_append]
    rfl
  · intro q hq
    by_cases hqp : q = p
    · rw [hqp]
      exact hnewslice
    · rcases List.mem_append.mp hq with hq | hq
      · show 0 < time_slice q ∧ time_slice q ≤ rq.max_time_slice
        rw [hslice q (h.sub q hq) hqp]
        exact h.slice q hq
      · exact absurd (List.mem_singleton.mp hq) hqp
  · intro q hq
    by_cases hqp : q = p
    · rw [hqp]
      exact Int.le_of_lt hnewslice.1
    · show 0 ≤ time_slice q
      rw [hslice q hq hqp]
      exact h.nonneg q hq
  · show rq.queued ++ [p] = rq.dispatched ++ (queue ++ [p])
    rw [h.fifo, List.append_assoc]

/-- `RR_pick_next` picks the first process. -/
theorem RqOk.pick_next (h : RqOk rq alloc queue) : rrPickNext rq = queue.head? := by
  unfold rrPickNext
  rw [h.ring.next_head]
  cases queue <;> rfl

/-- `RR_dequeue` of the first process. -/
theorem RqOk.dequeue (h : RqOk rq alloc (p :: rest)) :
    ∃ rq', rrDequeue rq p = .ok rq' ∧ RqOk rq' alloc rest := by
  have hp : p ∈ alloc := h.sub p List.mem_cons_self
  have hnodup := List.nodup_cons.mp h.nodup
  have hlinked : listEmpty rq.run_list (some p) = false := by
    rw [← Bool.not_eq_true, h.listEmpty_iff hp]
    simp
  unfold rrDequeue
  rw [if_neg (not_not.mpr ⟨hlinked, h.on p List.mem_cons_self⟩)]
  refine ⟨_, rfl, ?_⟩
  have hring : (listDelInit rq.run_list (some p)).Ring none (rest.map some) := by
    have hdel : (listDel rq.run_list (some p)).Ring none ([] ++ rest.map some) :=
      ring_listDel (show rq.run_list.Ring none ([] ++ some p :: rest.map some) from h.ring)
    exact hdel.frame_init (by simpa using hnodup.1)
  refine ⟨hring, ?_, ?_, ?_, ?_, h.max_pos, ?_, h.nonneg, ?_⟩
  · exact fun q hq => h.sub q (List.mem_cons_of_mem p hq)
  · intro q hq hnot
    show Function.update (listDel rq.run_list (some p)).next (some p) (some p) (some q) = some q
    by_cases hqp : q = p
    · rw [hqp, Function.update_self]
    · rw [Function.update_of_ne (by simpa using hqp)]
      -- the node in front of `p` is the head
      have hprev : some q ≠ rq.run_list.prev (some p) := by
        rw [show rq.run_list.prev (some p) = none from
          (Ring.mid (show rq.run_list.Ring none ([] ++ some p :: rest.map some) from h.ring)).2]
        simp
      exact (join_next_of_ne _ hprev).trans
        (h.alone q hq (fun hmem => hnot ((List.mem_cons.mp hmem).resolve_left hqp)))
  · exact fun q hq => h.on q (List.mem_cons_of_mem p hq)
  · show rq.proc_num - 1 = (rest.length : Int)
    rw [h.count, List.length_cons]
    push_cast
    omega
  · exact fun q hq => h.slice q (List.mem_cons_of_mem p hq)
  · show rq.queued = rq.dispatched ++ [p] ++ rest
    rw [h.fifo, List.append_assoc]
    rfl

/-- A tick of a process that is not in the queue. -/
theorem RqOk.tick (h : RqOk rq alloc queue) (hp : p ∉ queue) :
    RqOk (rrProcTick rq p).1 alloc queue := by
  unfold rrProcTick
  dsimp only
  split
  · rename_i hpos
    have hother : ∀ q, q ≠ p → Function.update rq.time_slice p (rq.time_slice p - 1) q =
        rq.time_slice q := fun q hq => Function.update_of_ne hq ..
    refine ⟨h.ring, h.sub, h.alone, h.on, h.count, h.max_pos, ?_, ?_, h.fifo⟩
    · intro q hq
      have hqp : q ≠ p := fun e => hp (e ▸ hq)
      show 0 < Function.update rq.time_slice p (rq.time_slice p - 1) q ∧
        Function.update rq.time_slice p (rq.time_slice p - 1) q ≤ rq.max_time_slice
      rw [hother q hqp]
      exact h.slice q hq
    · intro q hq
      show 0 ≤ Function.update rq.time_slice p (rq.time_slice p - 1) q
      by_cases hqp : q = p
      · rw [hqp, Function.update_self]
        omega
      · rw [hother q hqp]
        exact h.nonneg q hq
  · exact h

/-- A new process is in no queue. -/
theorem RqOk.add (h : RqOk rq alloc queue) (hp : p ∉ alloc) :
    RqOk (rrAlloc rq p) (p :: alloc) queue := by
  have hpq : p ∉ queue := fun hmem => hp (h.sub p hmem)
  have hne : ∀ q ∈ queue, q ≠ p := fun q hq e => hpq (e ▸ hq)
  refine ⟨?_, ?_, ?_, ?_, h.count, h.max_pos, ?_, ?_, h.fifo⟩
  · exact h.ring.frame_init (by simpa using hpq)
  · exact fun q hq => List.mem_cons_of_mem p (h.sub q hq)
  · intro q hq hnot
    show Function.update rq.run_list.next (some p) (some p) (some q) = some q
    by_cases hqp : q = p
    · rw [hqp, Function.update_self]
    · rw [Function.update_of_ne (by simpa using hqp)]
      exact h.alone q ((List.mem_cons.mp hq).resolve_left hqp) hnot
  · intro q hq
    show Function.update rq.rq p false q = true
    rw [Function.update_of_ne (hne q hq)]
    exact h.on q hq
  · intro q hq
    show 0 < Function.update rq.time_slice p 0 q ∧
      Function.update rq.time_slice p 0 q ≤ rq.max_time_slice
    rw [Function.update_of_ne (hne q hq)]
    exact h.slice q hq
  · intro q hq
    show 0 ≤ Function.update rq.time_slice p 0 q
    by_cases hqp : q = p
    · have hzero : Function.update rq.time_slice p 0 q = 0 := by
        rw [hqp, Function.update_self]
      exact Int.le_of_eq hzero.symm
    · rw [Function.update_of_ne hqp]
      exact h.nonneg q ((List.mem_cons.mp hq).resolve_left hqp)

/-- A process that is not in the queue may go. -/
theorem RqOk.shrink (h : RqOk rq alloc queue) {alloc' : List P} (hsub : ∀ q ∈ alloc', q ∈ alloc)
    (hqueue : ∀ q ∈ queue, q ∈ alloc') : RqOk rq alloc' queue :=
  ⟨h.ring, hqueue, fun q hq => h.alone q (hsub q hq), h.on, h.count, h.max_pos, h.slice,
    fun q hq => h.nonneg q (hsub q hq), h.fifo⟩

/-- `RR_init` leaves an empty queue. -/
theorem rrInit_ok (rq : RunQueue P) : RqOk (rrInit rq) [] [] := by
  refine ⟨ring_init _ _, ?_, ?_, ?_, rfl, ?_, ?_, ?_, rfl⟩
  · simp
  · simp
  · simp
  · show (0 : Int) < 5
    omega
  · simp
  · simp

end Ucore.Proofs.Schedule
