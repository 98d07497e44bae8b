import Ucore.Proofs.Process.Exit

/-!
# `Ucore.Proofs.Process.Run`: the processes over a whole run

What the walks over the lists find (`scheduleLoop_mem`, `findProcLoop_mem`, `waitLoop_mem`), one
lemma for each call, and the state of the lists behind any sequence of calls.

## The invariant of a run

`RunOk` is `ProcsOk` with what the calls rely on: the current process has a struct and is runnable,
`initproc` is on the list and is no zombie, and `idleproc` is nobody's child. There is one lemma for
each call: `RunOk.of_doFork`, `RunOk.of_doExit`, `RunOk.of_doWait`, `RunOk.of_doKill`. Each of them
says, beside the invariant, what the call allocates and what it frees. `RunOk.step` puts them
together and `procRun_ok` is the induction.

`schedule` goes to a process that is runnable. When none is, the walk over the list comes to an end
and `idleproc` runs. `ProcsOk.resume` covers both, and also the wake-up of a process in `do_wait`.

## Results

`procs_consistent` reads the invariant off the links: the process list, the hash lists and the
children of every process, with each process in the right bucket and with the right parent, and
`nr_process` counts the list. A process is freed only as a zombie, by its parent, and once.

`procs_consistent_family` is a run in which a parent exits before its children do: they become
children of `initproc`, which wakes up and reaps the parent.
-/

set_option autoImplicit false
set_option linter.unusedSectionVars false

namespace Ucore.Proofs.Process

open Ucore.Lib Ucore.Lib.Links Ucore.Libs Ucore.Schedule Ucore.Process

variable {P : Type} [DecidableEq P] {order : List P} {bucket : Nat → List P} {kids : P → List P}
  {s s' : Procs P} {p q : P} {idleproc initproc : P} {fuel : Nat}

/-! ### What the walks find -/

/-- The walk of `schedule` stays on the process list. -/
theorem scheduleLoop_mem (h : s.links.Ring .procList (order.map .listLink)) {last : ListNode P} :
    ∀ {fuel : Nat} {le : ListNode P} {next : Option P},
    le ∈ ListNode.procList :: order.map .listLink → (∀ q, next = some q → q ∈ order) →
    scheduleLoop s last fuel le next = .ok (some p) → p ∈ order := by
  intro fuel
  induction fuel with
  | zero =>
      intro le next _ _ hrun
      cases hrun
  | succ fuel ih =>
      intro le next hle hnext hrun
      have hmem := h.next_mem hle
      unfold scheduleLoop at hrun
      split at hrun
      · rename_i q hq
        rw [hq] at hmem
        have hqorder : q ∈ order := by simpa using hmem
        split at hrun
        · cases hrun
          exact hqorder
        · split at hrun
          · cases hrun
            exact hqorder
          · refine ih hmem ?_ hrun
            rintro r ⟨⟩
            exact hqorder
      · split at hrun
        · cases hrun
          exact hnext p rfl
        · exact ih hmem hnext hrun

/-- `find_proc` finds a process of the bucket with this pid. -/
theorem findProcLoop_mem {i : Nat} {xs : List P} {pid : Int}
    (h : s.links.Ring (.hashList i) (xs.map .hashLink)) : ∀ {fuel : Nat} {le : ListNode P},
    le ∈ ListNode.hashList i :: xs.map .hashLink → findProcLoop s pid fuel le = .ok (some p) →
    p ∈ xs ∧ s.pid p = pid := by
  intro fuel
  induction fuel with
  | zero =>
      intro le _ hrun
      cases hrun
  | succ fuel ih =>
      intro le hle hrun
      have hmem := h.next_mem hle
      unfold findProcLoop at hrun
      split at hrun
      · rename_i q hq
        rw [hq] at hmem
        split at hrun
        · rename_i hpid
          cases hrun
          exact ⟨by simpa using hmem, hpid⟩
        · exact ih hmem hrun
      · cases hrun

/-- What `find_proc` finds is a listed process with the number. -/
theorem ProcsOk.findProc (h : ProcsOk idleproc s order bucket kids) {pid : Int}
    (hrun : findProc fuel s pid = .ok (some p)) : p ∈ order ∧ s.pid p = pid := by
  unfold Process.findProc at hrun
  split at hrun
  · have hring := h.rings.ring (some (pidHashfn pid)) (inTable_some (pidHashfn_lt pid))
    obtain ⟨hmem, hpid⟩ := findProcLoop_mem hring List.mem_cons_self hrun
    exact ⟨((h.bucket_mem _ p).mp hmem).1, hpid⟩
  · cases hrun

/-- The loop of `do_wait` finds a zombie among the children. -/
theorem waitLoop_mem : ∀ {fuel : Nat} {y c : Option P} {xs : List P} {haskid b : Bool},
    Chain s.yptr s.optr y c xs → waitLoop s fuel c haskid = .ok (some p, b) →
    p ∈ xs ∧ s.state p = .zombie := by
  intro fuel
  induction fuel with
  | zero =>
      intro y c xs haskid b _ hrun
      cases hrun
  | succ fuel ih =>
      intro y c xs haskid b hchain hrun
      cases xs with
      | nil =>
          cases hchain
          cases hrun
      | cons q qs =>
          obtain ⟨rfl, -, hrest⟩ := hchain
          unfold waitLoop at hrun
          split at hrun
          · rename_i hz
            cases hrun
            exact ⟨List.mem_cons_self, hz⟩
          · obtain ⟨hmem, hz⟩ := ih hrest hrun
            exact ⟨List.mem_cons_of_mem q hmem, hz⟩

/-- `do_wait` finds a zombie whose parent is the current process. -/
theorem ProcsOk.waitSearch (h : ProcsOk idleproc s order bucket kids)
    (hcur : s.current ∈ s.allocated) {pid : Int} {b : Bool}
    (hrun : waitSearch fuel s pid = .ok (some p, b)) :
    p ∈ order ∧ s.parent p = some s.current ∧ s.state p = .zombie := by
  unfold Process.waitSearch at hrun
  split at hrun
  · obtain ⟨found, hfind, hrun⟩ := Halt.bind_eq_ok.mp hrun
    cases found with
    | none => cases hrun
    | some q =>
        dsimp only at hrun
        split at hrun
        · rename_i hpar
          split at hrun
          · rename_i hz
            cases hrun
            exact ⟨(h.findProc hfind).1, hpar, hz⟩
          · cases hrun
        · cases hrun
  · obtain ⟨hmem, hz⟩ := waitLoop_mem (h.chain s.current hcur) hrun
    obtain ⟨hporder, hpar⟩ := (h.kids_mem s.current hcur p).mp hmem
    exact ⟨hporder, hpar, hz⟩

/-! ### The calls -/

/-- `schedule` goes to a runnable process. -/
theorem ProcsOk.schedule (h : ProcsOk idleproc s order bucket kids)
    (hcur : s.current ∈ s.allocated) (hrun : schedule idleproc fuel s = .ok s') :
    ∃ next ∈ s.allocated, s.state next = .runnable ∧ s' = { s with
      need_resched := Function.update s.need_resched s.current false
      current := next } := by
  unfold Process.schedule at hrun
  dsimp only at hrun
  obtain ⟨found, hloop, hrun⟩ := Halt.bind_eq_ok.mp hrun
  cases found with
  | none =>
      cases hrun
      exact ⟨idleproc, h.idle.1, h.idle.2, rfl⟩
  | some next =>
      dsimp only at hrun
      by_cases hst : s.state next = .runnable
      · rw [if_pos hst] at hrun
        cases hrun
        have hring := h.rings.ring none inTable_none
        have hmem : next ∈ order := by
          refine scheduleLoop_mem (s := { s with
            need_resched := Function.update s.need_resched s.current false }) hring ?_
            (by simp) hloop
          split
          · exact List.mem_cons_self
          · rename_i hidle
            have hcur' := (h.order_mem s.current).mpr ⟨hcur, hidle⟩
            exact List.mem_cons_of_mem _ (List.mem_map_of_mem hcur')
        exact ⟨next, ((h.order_mem next).mp hmem).1, hst, rfl⟩
      · rw [if_neg hst] at hrun
        cases hrun
        exact ⟨idleproc, h.idle.1, h.idle.2, rfl⟩

/-- What holds in every state of a run. -/
structure RunOk (idleproc initproc : P) (s : Procs P) (order : List P) (bucket : Nat → List P)
    (kids : P → List P) : Prop extends ProcsOk idleproc s order bucket kids where
  init_mem : initproc ∈ order
  init_state : s.state initproc ≠ .zombie
  current_mem : s.current ∈ s.allocated
  current_state : s.state s.current = .runnable
  idle_parent : s.parent idleproc = none

/-- The lists do not depend on which process runs. -/
theorem ProcsOk.run (h : ProcsOk idleproc s order bucket kids) (hinit : initproc ∈ order)
    (hinitz : s.state initproc ≠ .zombie) (hparent : s.parent idleproc = none) {next : P}
    (hnext : next ∈ s.allocated) (hstate : s.state next = .runnable) (need_resched : P → Bool) :
    RunOk idleproc initproc { s with need_resched := need_resched, current := next } order bucket
      kids :=
  ⟨h.states rfl rfl rfl rfl rfl rfl rfl rfl (fun _ hq => Or.inl hq) h.idle.2 h.wait,
    hinit, hinitz, hnext, hstate, hparent⟩

/-- The lists behind a `schedule`, from a state in which the current process may have gone to
sleep or become a zombie. -/
theorem ProcsOk.resume (h : ProcsOk idleproc s order bucket kids) (hinit : initproc ∈ order)
    (hinitz : s.state initproc ≠ .zombie) (hcur : s.current ∈ s.allocated)
    (hparent : s.parent idleproc = none)
    (hrun : Process.schedule idleproc fuel s = .ok s') :
    RunOk idleproc initproc s' order bucket kids ∧ s'.allocated = s.allocated ∧
      s'.parent = s.parent ∧ s'.state = s.state := by
  obtain ⟨next, hnext, hstate, rfl⟩ := h.schedule hcur hrun
  exact ⟨h.run hinit hinitz hparent hnext hstate _, rfl, rfl, rfl⟩

/-- `get_pid` changes its own two variables only. -/
theorem getPid_frame {pid : Int} (hrun : getPid fuel s = .ok (pid, s')) :
    ∃ next_safe, s' = { s with last_pid := pid, next_safe := next_safe } := by
  unfold getPid at hrun
  dsimp only at hrun
  split at hrun
  · obtain ⟨⟨last_pid, next_safe⟩, -, hrun⟩ := Halt.bind_eq_ok.mp hrun
    cases hrun
    exact ⟨next_safe, rfl⟩
  · split at hrun
    · obtain ⟨⟨last_pid, next_safe⟩, -, hrun⟩ := Halt.bind_eq_ok.mp hrun
      cases hrun
      exact ⟨next_safe, rfl⟩
    · cases hrun
      exact ⟨s.next_safe, rfl⟩

/-- What `do_fork` does to the processes. -/
theorem ProcsOk.fork (h : ProcsOk idleproc s order bucket kids) (hcur : s.current ∈ s.allocated)
    (hstate : s.state s.current ≠ .zombie) {alloc : Option P} {kstack mm : Bool} {ret : Int}
    (hfresh : ∀ proc, alloc = some proc → proc ∉ s.allocated)
    (hrun : doFork fuel s alloc kstack mm = .ok (ret, s')) :
    ∃ order' bucket' kids', ProcsOk idleproc s' order' bucket' kids' ∧
      s'.current = s.current ∧
      (∀ x ∈ s.allocated, s'.state x = s.state x ∧ s'.parent x = s.parent x) ∧
      (s'.allocated = s.allocated ∧ order' = order ∧
          (MAX_PROCESS ≤ s.nr_process ∨ alloc = none ∨ ¬ (kstack ∧ mm)) ∨
        ∃ proc, alloc = some proc ∧ s'.allocated = proc :: s.allocated ∧
          order' = proc :: order ∧ s'.state proc = .runnable) := by
  unfold doFork at hrun
  split at hrun
  · rename_i hmax
    cases hrun
    exact ⟨order, bucket, kids, h, rfl, fun _ _ => ⟨rfl, rfl⟩, Or.inl ⟨rfl, rfl, Or.inl hmax⟩⟩
  split at hrun
  · cases hrun
    exact ⟨order, bucket, kids, h, rfl, fun _ _ => ⟨rfl, rfl⟩,
      Or.inl ⟨rfl, rfl, Or.inr (Or.inl rfl)⟩⟩
  rename_i proc
  have hp := hfresh proc rfl
  have hpc : proc ≠ s.current := fun e => hp (e ▸ hcur)
  dsimp only at hrun
  split at hrun
  · cases hrun
  split at hrun
  · -- the struct is given back
    rename_i hmem
    cases hrun
    refine ⟨order, bucket, kids, h.congr rfl rfl ?_ ?_, rfl, ?_,
      Or.inl ⟨?_, rfl, Or.inr (Or.inr hmem)⟩⟩
    · exact List.erase_cons_head ..
    · intro x hx
      have hxp : x ≠ proc := fun e => hp (e ▸ hx)
      exact ⟨Function.update_of_ne hxp .., Function.update_of_ne hxp ..,
        (Function.update_of_ne hxp ..).trans (Function.update_of_ne hxp ..),
        Function.update_of_ne hxp .., Function.update_of_ne hxp .., Function.update_of_ne hxp ..,
        Function.update_of_ne hxp ..⟩
    · intro x hx
      have hxp : x ≠ proc := fun e => hp (e ▸ hx)
      exact ⟨Function.update_of_ne hxp ..,
        (Function.update_of_ne hxp ..).trans (Function.update_of_ne hxp ..)⟩
    · exact List.erase_cons_head ..
  obtain ⟨⟨pid, s₁⟩, hpid, hrun⟩ := Halt.bind_eq_ok.mp hrun
  obtain ⟨next_safe, rfl⟩ := getPid_frame hpid
  obtain ⟨s₂, hset, hrun⟩ := Halt.bind_eq_ok.mp hrun
  obtain ⟨s₃, hwake, hrun⟩ := Halt.bind_eq_ok.mp hrun
  cases hrun
  -- The fields of the new struct, with the struct itself not yet counted.
  have hfields : ProcsOk idleproc { s with
    state := Function.update s.state proc .uninit
    pid := Function.update (Function.update s.pid proc (-1)) proc pid
    need_resched := Function.update s.need_resched proc false
    parent := Function.update (Function.update s.parent proc none) proc (some s.current)
    exiting := Function.update s.exiting proc false
    wait_state := Function.update s.wait_state proc 0
    cptr := Function.update s.cptr proc none
    optr := Function.update s.optr proc none
    yptr := Function.update s.yptr proc none
    last_pid := pid
    next_safe := next_safe } order bucket kids := by
    refine h.congr rfl rfl rfl fun x hx => ?_
    have hxp : x ≠ proc := fun e => hp (e ▸ hx)
    exact ⟨Function.update_of_ne hxp ..,
      (Function.update_of_ne hxp ..).trans (Function.update_of_ne hxp ..),
      (Function.update_of_ne hxp ..).trans (Function.update_of_ne hxp ..),
      Function.update_of_ne hxp .., Function.update_of_ne hxp .., Function.update_of_ne hxp ..,
      Function.update_of_ne hxp ..⟩
  obtain ⟨hlink, halloc, hst, hcur', hpar⟩ := hfields.link (p := proc) (c := s.current) hcur (by
      show Function.update s.state proc .uninit s.current ≠ .zombie
      rwa [Function.update_of_ne hpc.symm]) hp (Function.update_self ..)
    (Function.update_self ..) (Function.update_self ..) hset
  refine ⟨_, _, _, hlink.wakeup hwake, ?_, ?_, Or.inr ⟨proc, rfl, ?_, rfl,
    wakeupProc_runnable hwake⟩⟩
  · obtain ⟨-, rfl | rfl⟩ := wakeupProc_cases hwake <;> exact hcur'
  · intro x hx
    have hxp : x ≠ proc := fun e => hp (e ▸ hx)
    have hx₂ : s₂.state x = s.state x := by
      rw [hst]
      exact Function.update_of_ne hxp ..
    have hpar₂ : s₂.parent x = s.parent x := by
      rw [hpar]
      exact (Function.update_of_ne hxp ..).trans (Function.update_of_ne hxp ..)
    obtain ⟨-, rfl | rfl⟩ := wakeupProc_cases hwake
    · exact ⟨hx₂, hpar₂⟩
    · exact ⟨(Function.update_of_ne hxp ..).trans hx₂, hpar₂⟩
  · obtain ⟨-, rfl | rfl⟩ := wakeupProc_cases hwake <;> exact halloc

/-! ### The run -/

/-- Behind `list_init` of all heads every list is empty. -/
theorem rings_init (l : Links (ListNode P)) :
    ((List.range HASH_LIST_SIZE).foldl (fun l i => listInit l (.hashList i))
      (listInit l .procList)).Rings inTable headOf (nodesOf [] fun _ => []) := by
  have hkeep : ∀ (l : Links (ListNode P)) (e x : ListNode P), l.next x = x ∧ l.prev x = x ∨ x = e →
      (listInit l e).next x = x ∧ (listInit l e).prev x = x := by
    intro l e x hx
    show Function.update l.next e e x = x ∧ Function.update l.prev e e x = x
    by_cases hxe : x = e
    · rw [hxe, Function.update_self, Function.update_self]
      exact ⟨rfl, rfl⟩
    · rw [Function.update_of_ne hxe, Function.update_of_ne hxe]
      exact hx.resolve_right hxe
  have hall : ∀ (is : List Nat) (l : Links (ListNode P)) (x : ListNode P),
      (l.next x = x ∧ l.prev x = x ∨ ∃ i ∈ is, x = .hashList i) →
      (is.foldl (fun l i => listInit l (.hashList i)) l).next x = x ∧
        (is.foldl (fun l i => listInit l (.hashList i)) l).prev x = x := by
    intro is
    induction is with
    | nil =>
        intro l x hx
        exact hx.resolve_right (by simp)
    | cons i is ih =>
        intro l x hx
        refine ih _ x ?_
        rcases hx with hx | ⟨j, hj, rfl⟩
        · exact Or.inl (hkeep l _ x (Or.inl hx))
        · rcases List.mem_cons.mp hj with rfl | hj
          · exact Or.inl (hkeep l _ _ (Or.inr rfl))
          · exact Or.inr ⟨j, hj, rfl⟩
  have hnil : ∀ k, nodesOf ([] : List P) (fun _ => []) k = [] := by
    intro k
    cases k <;> rfl
  constructor
  · intro k hk
    rw [hnil]
    have halone := hall (List.range HASH_LIST_SIZE) (listInit l .procList) (headOf k) (by
      cases k with
      | none => exact Or.inl (hkeep l _ _ (Or.inr rfl))
      | some i => exact Or.inr ⟨i, List.mem_range.mpr (hk i rfl), rfl⟩)
    exact ⟨halone, by simp⟩
  · intro j k _ _ hjk x hx
    rw [hnil, List.mem_singleton] at hx ⊢
    subst hx
    intro e
    apply hjk
    cases j <;> cases k <;> simp_all [headOf]

/-- Behind `proc_init` up to the call of `kernel_thread` there is only `idleproc`. -/
theorem procInit_ok (s₀ : Procs P) (idleproc : P) :
    ProcsOk idleproc (procInit s₀ idleproc) [] (fun _ => []) (fun _ => []) := by
  have hlinks : (procInit s₀ idleproc).links =
      (List.range HASH_LIST_SIZE).foldl (fun l i => listInit l (.hashList i))
        (listInit s₀.links .procList) := by
    simp only [procInit, allocProc]
  constructor
  · rw [hlinks]
    exact rings_init s₀.links
  · intro p
    show p ∈ [] ↔ p ∈ [idleproc] ∧ p ≠ idleproc
    simp
  · intro i p
    simp
  · rfl
  · exact List.nodup_singleton idleproc
  · intro q hq
    obtain rfl : q = idleproc := List.mem_singleton.mp hq
    exact Function.update_self ..
  · intro q _
    exact List.nodup_nil
  · intro q _ p
    simp
  · intro p hp
    cases hp
  · exact ⟨List.mem_singleton_self idleproc, Function.update_self ..⟩
  · intro p hp
    obtain rfl : p = idleproc := List.mem_singleton.mp hp
    exact Or.inr (Function.update_self ..)

/-- `proc_init` leaves `idleproc` and `initproc`. -/
theorem procInit_run {s₀ : Procs P} {pid : Int} (hne : initproc ≠ idleproc)
    (hrun : doFork fuel (procInit s₀ idleproc) (some initproc) true true = .ok (pid, s)) :
    ∃ order bucket kids, RunOk idleproc initproc s order bucket kids := by
  have hok := procInit_ok s₀ idleproc
  obtain ⟨order, bucket, kids, h, hcur, hsame, hcases⟩ :=
    hok.fork hok.idle.1 (by
      rw [show (procInit s₀ idleproc).current = idleproc from rfl, hok.idle.2]
      simp) (by
      rintro proc ⟨⟩
      show initproc ∉ [idleproc]
      simpa using hne) hrun
  have hidle := hsame idleproc hok.idle.1
  -- With memory and a free number `do_fork` has linked the new process.
  have hmem : initproc ∈ order ∧ s.state initproc ≠ .zombie := by
    rcases hcases with ⟨-, -, hmax | hnone | hmem⟩ | ⟨proc, hproc, -, horder, hstate⟩
    · have hle : (4096 : Int) ≤ 0 + 1 := hmax
      omega
    · cases hnone
    · exact absurd ⟨rfl, rfl⟩ hmem
    · cases hproc
      rw [horder, hstate]
      exact ⟨List.mem_cons_self, by simp⟩
  refine ⟨order, bucket, kids, h, hmem.1, hmem.2, ?_, ?_, ?_⟩
  · rw [hcur]
    exact h.idle.1
  · rw [hcur]
    exact h.idle.2
  · rw [hidle.2]
    exact Function.update_self ..

/-- `do_fork` keeps the invariant. It changes no state, and a new process is runnable. -/
theorem RunOk.of_doFork (h : RunOk idleproc initproc s order bucket kids) {alloc : Option P}
    {kstack mm : Bool} {ret : Int} (hfresh : ∀ proc, alloc = some proc → proc ∉ s.allocated)
    (hrun : doFork fuel s alloc kstack mm = .ok (ret, s')) :
    (∃ order' bucket' kids', RunOk idleproc initproc s' order' bucket' kids') ∧
      (∀ x ∈ s.allocated, x ∈ s'.allocated) ∧ (∀ x ∈ s.allocated, s'.state x = s.state x) ∧
      ∀ x ∈ s'.allocated, x ∉ s.allocated → s'.state x = .runnable := by
  obtain ⟨order', bucket', kids', hok, hcur, hsame, hcases⟩ :=
    h.toProcsOk.fork h.current_mem (by simp [h.current_state]) hfresh hrun
  have hgrow : (∀ x ∈ s.allocated, x ∈ s'.allocated) ∧ ∀ x ∈ order, x ∈ order' := by
    rcases hcases with ⟨halloc, horder, -⟩ | ⟨proc, -, halloc, horder, -⟩
    · rw [halloc, horder]
      exact ⟨fun _ hx => hx, fun _ hx => hx⟩
    · rw [halloc, horder]
      exact ⟨fun _ => List.mem_cons_of_mem proc, fun _ => List.mem_cons_of_mem proc⟩
  have hinit := ((h.order_mem initproc).mp h.init_mem).1
  refine ⟨⟨order', bucket', kids', hok, hgrow.2 _ h.init_mem, ?_, ?_, ?_, ?_⟩, hgrow.1,
    fun x hx => (hsame x hx).1, ?_⟩
  · rw [(hsame initproc hinit).1]
    exact h.init_state
  · rw [hcur]
    exact hgrow.1 _ h.current_mem
  · rw [hcur, (hsame _ h.current_mem).1]
    exact h.current_state
  · rw [(hsame _ h.idle.1).2]
    exact h.idle_parent
  · intro x hx hx'
    rcases hcases with ⟨halloc, -⟩ | ⟨proc, -, halloc, -, hstate⟩
    · exact absurd hx (halloc ▸ hx')
    · rw [halloc] at hx
      rw [(List.mem_cons.mp hx).resolve_right hx']
      exact hstate

/-- `do_exit` in front of its `schedule`. -/
theorem RunOk.of_exitProc (h : RunOk idleproc initproc s order bucket kids) {error_code : Int}
    (hexit : exitProc idleproc initproc fuel s error_code = .ok s') :
    (∃ kids', ProcsOk idleproc s' order bucket kids') ∧
      HandedOver initproc s.current { s with
        state := Function.update s.state s.current .zombie
        exit_code := Function.update s.exit_code s.current error_code } s' ∧
      (∀ x ∈ order, s'.parent x ≠ some s.current) ∧
      (∀ x, x = s.current ∨ s.state x = .zombie → s'.state x = .zombie) ∧
      s'.state initproc ≠ .zombie ∧ s'.parent idleproc = none ∧ s'.current ∈ s'.allocated ∧
      s'.allocated = s.allocated := by
  obtain ⟨hidle, hci, hok, hover, hgone⟩ :=
    h.toProcsOk.exit h.current_mem h.current_state h.init_mem h.init_state hexit
  have hcur : s'.current = s.current := by rw [hover.rest]
  have halloc : s'.allocated = s.allocated := by rw [hover.rest]
  refine ⟨hok, hover, hgone, ?_, ?_, ?_, by rw [hcur, halloc]; exact h.current_mem, halloc⟩
  · -- A zombie is not woken up.
    intro x hx
    have hx₁ : Function.update s.state s.current .zombie x = .zombie := by
      by_cases hxc : x = s.current
      · rw [hxc, Function.update_self]
      · rw [Function.update_of_ne hxc]
        exact hx.resolve_left hxc
    rcases hover.state x with ⟨hst, -⟩ | ⟨hnot, -⟩
    · exact hst.trans hx₁
    · exact absurd hx₁ hnot
  · rcases hover.state initproc with ⟨hst, -⟩ | ⟨-, hst, -⟩
    · rw [hst]
      show Function.update s.state s.current .zombie initproc ≠ .zombie
      rw [Function.update_of_ne (Ne.symm hci)]
      exact h.init_state
    · rw [hst]
      simp
  · rcases hover.parent idleproc with hpar | ⟨hpar, -⟩
    · exact hpar.trans h.idle_parent
    · exact absurd (h.idle_parent.symm.trans hpar) (by simp)

/-- `do_exit` keeps the invariant. The current process is a zombie, and its children are those of
`initproc`. -/
theorem RunOk.of_doExit (h : RunOk idleproc initproc s order bucket kids) {error_code : Int}
    (hrun : doExit idleproc initproc fuel s error_code = .ok s') :
    (∃ order' bucket' kids', RunOk idleproc initproc s' order' bucket' kids') ∧
      s'.allocated = s.allocated ∧ (∀ x, s.state x = .zombie → s'.state x = .zombie) ∧
      s'.state s.current = .zombie ∧
      ∀ x ∈ s.allocated,
        s'.parent x = if s.parent x = some s.current then some initproc else s.parent x := by
  unfold doExit at hrun
  obtain ⟨s₁, hexit, hrun⟩ := Halt.bind_eq_ok.mp hrun
  obtain ⟨⟨kids', hok⟩, hover, hgone, hzombie, hinit, hparent, hcur, halloc⟩ := h.of_exitProc hexit
  obtain ⟨hrunok, halloc', hparent', hstate'⟩ := hok.resume h.init_mem hinit hcur hparent hrun
  refine ⟨⟨order, bucket, kids', hrunok⟩, halloc'.trans halloc, ?_, ?_, ?_⟩
  · intro x hx
    rw [hstate']
    exact hzombie x (Or.inr hx)
  · rw [hstate']
    exact hzombie s.current (Or.inl rfl)
  · intro x hx
    rw [hparent']
    by_cases hxi : x = idleproc
    · rw [hxi, hparent, h.idle_parent]
      simp
    · have hxorder := (h.order_mem x).mpr ⟨hx, hxi⟩
      split
      · rename_i hxc
        rcases hover.parent x with hpar | ⟨-, hpar⟩
        · exact absurd (hpar.trans hxc) (hgone x hxorder)
        · exact hpar
      · rename_i hxc
        rcases hover.parent x with hpar | ⟨hpar, -⟩
        · exact hpar
        · exact absurd hpar hxc

/-- `do_wait` keeps the invariant. It frees at most one process, a zombie child of the current
one. -/
theorem RunOk.of_doWait (h : RunOk idleproc initproc s order bucket kids) {pid : Int}
    {ret : Option Int} (hidle : s.current ≠ idleproc)
    (hrun : doWait idleproc initproc fuel s pid = .ok (ret, s')) :
    (∃ order' bucket' kids', RunOk idleproc initproc s' order' bucket' kids') ∧
      (∀ x, s.state x = .zombie → s'.state x = .zombie) ∧
      (s'.allocated = s.allocated ∨ ∃ p ∈ order, s.state p = .zombie ∧
        s.parent p = some s.current ∧ s'.allocated = s.allocated.erase p) := by
  unfold doWait at hrun
  obtain ⟨⟨found, haskid⟩, hsearch, hrun⟩ := Halt.bind_eq_ok.mp hrun
  cases found with
  | some p =>
      obtain ⟨hporder, hpar, hz⟩ := h.toProcsOk.waitSearch h.current_mem hsearch
      dsimp only at hrun
      split at hrun
      · cases hrun
      obtain ⟨s₁, hremove, hrun⟩ := Halt.bind_eq_ok.mp hrun
      cases hrun
      obtain ⟨order', bucket', kids', hok, hmem, halloc, hstate, hcur, hparent⟩ :=
        h.toProcsOk.reap hporder hz hpar hremove
      have hpc : s.current ≠ p := by
        rintro e
        have hcz := h.current_state
        rw [e, hz] at hcz
        cases hcz
      have hpi : initproc ≠ p := by
        rintro rfl
        exact h.init_state hz
      have halloc' : (freeProc s₁ p).allocated = s.allocated.erase p := by
        show s₁.allocated.erase p = _
        rw [halloc]
      refine ⟨⟨order', bucket', kids', hok, (hmem initproc).mpr ⟨h.init_mem, hpi⟩, ?_, ?_, ?_, ?_⟩,
        ?_, Or.inr ⟨p, hporder, hz, hpar, halloc'⟩⟩
      · show s₁.state initproc ≠ .zombie
        rw [hstate]
        exact h.init_state
      · show s₁.current ∈ (freeProc s₁ p).allocated
        rw [hcur, halloc', h.nodup.mem_erase_iff]
        exact ⟨hpc, h.current_mem⟩
      · show s₁.state s₁.current = .runnable
        rw [hcur, hstate]
        exact h.current_state
      · show s₁.parent idleproc = none
        rw [hparent]
        exact h.idle_parent
      · intro x hx
        show s₁.state x = .zombie
        rw [hstate]
        exact hx
  | none =>
      cases haskid with
      | false =>
          cases hrun
          exact ⟨⟨order, bucket, kids, h⟩, fun _ hx => hx, Or.inl rfl⟩
      | true =>
          obtain ⟨s₁, hsched, hrun⟩ := Halt.bind_eq_ok.mp hrun
          cases hrun
          -- The current process sleeps. No other state changes, and it is not `idleproc`.
          have hother : ∀ x, x ≠ s.current →
              Function.update s.state s.current .sleeping x = s.state x :=
            fun x hx => Function.update_of_ne hx ..
          have hsleep : ProcsOk idleproc { s with
              state := Function.update s.state s.current .sleeping
              wait_state := Function.update s.wait_state s.current WT_CHILD } order bucket kids := by
            refine h.toProcsOk.states rfl rfl rfl rfl rfl rfl rfl rfl ?_ ?_ ?_
            · intro q hq
              left
              show Function.update s.state s.current .sleeping q ≠ .zombie
              by_cases hqc : q = s.current
              · rw [hqc, Function.update_self]
                simp
              · rwa [hother q hqc]
            · exact (hother idleproc (Ne.symm hidle)).trans h.idle.2
            · intro q hq
              show Function.update s.state s.current .sleeping q = .sleeping ∨
                Function.update s.wait_state s.current WT_CHILD q = 0
              by_cases hqc : q = s.current
              · rw [hqc, Function.update_self]
                exact Or.inl rfl
              · rw [hother q hqc, Function.update_of_ne hqc]
                exact h.wait q hq
          have hinit : Function.update s.state s.current .sleeping initproc ≠ .zombie := by
            by_cases hic : initproc = s.current
            · rw [hic, Function.update_self]
              simp
            · rw [hother _ hic]
              exact h.init_state
          obtain ⟨hrunok, halloc, -, hstate⟩ :=
            hsleep.resume h.init_mem hinit h.current_mem h.idle_parent hsched
          refine ⟨⟨order, bucket, kids, hrunok⟩, ?_, Or.inl halloc⟩
          intro x hx
          rw [hstate]
          refine (hother x ?_).trans hx
          rintro rfl
          rw [h.current_state] at hx
          cases hx

/-- `do_kill` keeps the invariant and frees nobody. -/
theorem RunOk.of_doKill (h : RunOk idleproc initproc s order bucket kids) {pid ret : Int}
    (hrun : doKill fuel s pid = .ok (ret, s')) :
    (∃ order' bucket' kids', RunOk idleproc initproc s' order' bucket' kids') ∧
      s'.allocated = s.allocated ∧ ∀ x, s.state x = .zombie → s'.state x = .zombie := by
  unfold doKill at hrun
  obtain ⟨found, -, hrun⟩ := Halt.bind_eq_ok.mp hrun
  cases found with
  | none =>
      cases hrun
      exact ⟨⟨order, bucket, kids, h⟩, rfl, fun _ hx => hx⟩
  | some proc =>
      dsimp only at hrun
      split at hrun
      · cases hrun
        exact ⟨⟨order, bucket, kids, h⟩, rfl, fun _ hx => hx⟩
      have hflag : RunOk idleproc initproc { s with
          exiting := Function.update s.exiting proc true } order bucket kids :=
        ⟨h.toProcsOk.states rfl rfl rfl rfl rfl rfl rfl rfl (fun _ hq => Or.inl hq) h.idle.2 h.wait,
          h.init_mem, h.init_state, h.current_mem, h.current_state, h.idle_parent⟩
      split at hrun
      · obtain ⟨s₁, hwake, hrun⟩ := Halt.bind_eq_ok.mp hrun
        cases hrun
        have hok := hflag.toProcsOk.wakeup hwake
        obtain ⟨hz, rfl | rfl⟩ := wakeupProc_cases hwake
        · exact ⟨⟨order, bucket, kids, hflag⟩, rfl, fun _ hx => hx⟩
        · have hstate : ∀ x, Function.update s.state proc .runnable x =
              if x = proc then .runnable else s.state x := fun x => Function.update_apply ..
          refine ⟨⟨order, bucket, kids, hok, h.init_mem, ?_, h.current_mem, ?_, h.idle_parent⟩, rfl,
            ?_⟩
          · show Function.update s.state proc .runnable initproc ≠ .zombie
            rw [hstate]
            split
            · simp
            · exact h.init_state
          · show Function.update s.state proc .runnable s.current = .runnable
            rw [hstate, h.current_state, ite_self]
          · intro x hx
            show Function.update s.state proc .runnable x = .zombie
            rw [hstate, if_neg]
            · exact hx
            · rintro rfl
              exact hz hx
      · cases hrun
        exact ⟨⟨order, bucket, kids, hflag⟩, rfl, fun _ hx => hx⟩

/-- A call of the current process. What a call frees is a zombie child of the current process,
and what it allocates is not a zombie. -/
theorem RunOk.step (h : RunOk idleproc initproc s order bucket kids)
    (hstep : ProcStep idleproc initproc s s') :
    (∃ order' bucket' kids', RunOk idleproc initproc s' order' bucket' kids') ∧
      (∀ x ∈ s.allocated, s.state x = .zombie → s'.state x = .zombie) ∧
      (∀ p ∈ s.allocated, p ∉ s'.allocated →
        s.state p = .zombie ∧ s.parent p = some s.current ∧ p ≠ idleproc ∧ p ≠ initproc) ∧
      ∀ p ∈ s'.allocated, p ∉ s.allocated → s'.state p ≠ .zombie := by
  cases hstep with
  | fork fuel alloc kstack mm ret _ hfresh hrun =>
      obtain ⟨hok, halloc, hstate, hnew⟩ := h.of_doFork hfresh hrun
      exact ⟨hok, fun x hx hz => (hstate x hx).trans hz, fun p hp hp' => absurd (halloc p hp) hp',
        fun p hp hp' => by rw [hnew p hp hp']; simp⟩
  | exit fuel error_code hrun =>
      obtain ⟨hok, halloc, hz, -⟩ := h.of_doExit hrun
      exact ⟨hok, fun x _ => hz x, fun p hp hp' => absurd hp (halloc ▸ hp'),
        fun p hp hp' => absurd hp (halloc ▸ hp')⟩
  | wait fuel pid ret hidle hrun =>
      obtain ⟨hok, hz, hcases⟩ := h.of_doWait hidle hrun
      refine ⟨hok, fun x _ => hz x, fun p hp hp' => ?_, fun p hp hp' => ?_⟩ <;>
        rcases hcases with halloc | ⟨q, hq, hqz, hqpar, halloc⟩
      · exact absurd hp (halloc ▸ hp')
      · obtain rfl : p = q := by
          by_contra hne
          exact hp' (by rw [halloc, h.nodup.mem_erase_iff]; exact ⟨hne, hp⟩)
        refine ⟨hqz, hqpar, ((h.order_mem p).mp hq).2, ?_⟩
        rintro rfl
        exact h.init_state hqz
      · exact absurd hp (halloc ▸ hp')
      · rw [halloc] at hp
        exact absurd (List.mem_of_mem_erase hp) hp'
  | kill fuel pid ret _ hrun =>
      obtain ⟨hok, halloc, hz⟩ := h.of_doKill hrun
      exact ⟨hok, fun x _ => hz x, fun p hp hp' => absurd hp (halloc ▸ hp'),
        fun p hp hp' => absurd hp (halloc ▸ hp')⟩
  | schedule fuel hrun =>
      obtain ⟨hok, halloc, -, hstate⟩ :=
        h.toProcsOk.resume h.init_mem h.init_state h.current_mem h.idle_parent hrun
      exact ⟨⟨order, bucket, kids, hok⟩, fun x _ hx => by rw [hstate]; exact hx,
        fun p hp hp' => absurd hp (halloc ▸ hp'), fun p hp hp' => absurd hp (halloc ▸ hp')⟩

/-- The invariant holds in every state of a run. -/
theorem procRun_ok (hrun : ProcRun idleproc initproc s) :
    ∃ order bucket kids, RunOk idleproc initproc s order bucket kids := by
  induction hrun with
  | init s₀ fuel pid hne hfork => exact procInit_run hne hfork
  | step _ hstep ih =>
      obtain ⟨order, bucket, kids, h⟩ := ih
      exact (h.step hstep).1

/-! ### The bookkeeping -/

/-- The lists of processes and of children, read off the links. -/
structure Consistent (idleproc : P) (s : Procs P) : Prop where
  procList : ∃ order : List P, s.links.Ring .procList (order.map .listLink) ∧ order.Nodup ∧
    (∀ p, p ∈ order ↔ p ∈ s.allocated ∧ p ≠ idleproc) ∧ s.nr_process = order.length + 1
  hashList : ∀ i < HASH_LIST_SIZE, ∃ bucket : List P,
    s.links.Ring (.hashList i) (bucket.map .hashLink) ∧ bucket.Nodup ∧
      ∀ p, p ∈ bucket ↔ p ∈ s.allocated ∧ p ≠ idleproc ∧ pidHashfn (s.pid p) = i
  children : ∀ q ∈ s.allocated, ∃ kids : List P, Chain s.yptr s.optr none (s.cptr q) kids ∧
    kids.Nodup ∧ ∀ p, p ∈ kids ↔ p ∈ s.allocated ∧ s.parent p = some q
  parent : ∀ p ∈ s.allocated, p ≠ idleproc →
    ∃ q ∈ s.allocated, s.parent p = some q ∧ s.state q ≠ .zombie

/-- What the invariant says about the lists. -/
theorem RunOk.consistent (h : RunOk idleproc initproc s order bucket kids) :
    Consistent idleproc s := by
  constructor
  · exact ⟨order, h.rings.ring none inTable_none, h.order_nodup, h.order_mem, h.count⟩
  · intro i hi
    refine ⟨bucket i, h.rings.ring (some i) (inTable_some hi), h.bucket_nodup i, ?_⟩
    intro p
    rw [h.bucket_mem, h.order_mem, and_assoc]
  · intro q hq
    refine ⟨kids q, h.chain q hq, h.kids_nodup q hq, ?_⟩
    intro p
    rw [h.kids_mem q hq, h.order_mem]
    constructor
    · rintro ⟨⟨hp, -⟩, hpar⟩
      exact ⟨hp, hpar⟩
    · rintro ⟨hp, hpar⟩
      refine ⟨⟨hp, ?_⟩, hpar⟩
      rintro rfl
      exact absurd (h.idle_parent.symm.trans hpar) (by simp)
  · intro p hp hpi
    exact h.parent p ((h.order_mem p).mpr ⟨hp, hpi⟩)

/-- In every state of a run the lists say what they should. A process is freed only as a zombie,
by its parent, and the children of a process that exits become children of `initproc`. -/
theorem procs_consistent (hrun : ProcRun idleproc initproc s) :
    Consistent idleproc s ∧
    (∀ s', ProcStep idleproc initproc s s' →
      (∀ x ∈ s.allocated, s.state x = .zombie → s'.state x = .zombie) ∧
      (∀ p ∈ s.allocated, p ∉ s'.allocated →
        s.state p = .zombie ∧ s.parent p = some s.current ∧ p ≠ idleproc ∧ p ≠ initproc) ∧
      ∀ p ∈ s'.allocated, p ∉ s.allocated → s'.state p ≠ .zombie) ∧
    ∀ fuel error_code s', doExit idleproc initproc fuel s error_code = .ok s' →
      s'.state s.current = .zombie ∧ ∀ x ∈ s.allocated,
        s'.parent x = if s.parent x = some s.current then some initproc else s.parent x := by
  obtain ⟨order, bucket, kids, h⟩ := procRun_ok hrun
  refine ⟨h.consistent, fun s' hstep => (h.step hstep).2, ?_⟩
  intro fuel error_code s' hexit
  exact (h.of_doExit hexit).2.2.2

/-! ### A short run -/

/-- What the current process calls, with fuel enough for a few processes. -/
inductive ProcCall where
  | fork (proc : Nat)
  | exit
  | wait (pid : Int)
  | schedule

/-- The state behind a call that the process may make. -/
def ProcCall.run : ProcCall → Procs Nat → Option (Procs Nat)
  | .fork proc, s =>
      if s.current ≠ 0 ∧ proc ∉ s.allocated then
        (doFork 20 s (some proc) true true).toOption.map Prod.snd
      else none
  | .exit, s => (doExit 0 1 20 s 0).toOption
  | .wait pid, s =>
      if s.current ≠ 0 then (doWait 0 1 20 s pid).toOption.map Prod.snd else none
  | .schedule, s => (Process.schedule 0 20 s).toOption

/-- A call of the current process is a step. -/
theorem ProcCall.step {call : ProcCall} {s s' : Procs Nat} (h : call.run s = some s') :
    ProcStep 0 1 s s' := by
  cases call with
  | fork proc =>
      obtain ⟨⟨hidle, hfresh⟩, hrun⟩ := Option.ite_none_right_eq_some.mp h
      obtain ⟨ret, hrun⟩ := toOption_snd hrun
      refine .fork 20 (some proc) true true ret hidle ?_ hrun
      rintro _ ⟨⟩
      exact hfresh
  | exit => exact .exit 20 0 (toOption_eq_some h)
  | wait pid =>
      obtain ⟨hidle, hrun⟩ := Option.ite_none_right_eq_some.mp h
      obtain ⟨ret, hrun⟩ := toOption_snd hrun
      exact .wait 20 pid ret hidle hrun
  | schedule => exact .schedule 20 (toOption_eq_some h)

/-- The calls in turn. -/
def procCalls : List ProcCall → Procs Nat → Option (Procs Nat)
  | [], s => some s
  | call :: calls, s => (call.run s).bind (procCalls calls)

/-- Calls in turn are a run. -/
theorem procRun_calls : ∀ {calls : List ProcCall} {s s' : Procs Nat}, ProcRun 0 1 s →
    procCalls calls s = some s' → ProcRun 0 1 s' := by
  intro calls
  induction calls with
  | nil =>
      intro s s' hrun h
      obtain rfl := Option.some.inj h
      exact hrun
  | cons call calls ih =>
      intro s s' hrun h
      obtain ⟨s₁, hcall, hcalls⟩ := Option.bind_eq_some_iff.mp h
      exact ih (hrun.step (ProcCall.step hcall)) hcalls

/-- The kernel before `proc_init`, with numbers for the structs. -/
def beforeProcInit : Procs Nat where
  state _ := .uninit
  pid _ := 0
  need_resched _ := false
  parent _ := none
  exiting _ := false
  exit_code _ := 0
  wait_state _ := 0
  cptr _ := none
  yptr _ := none
  optr _ := none
  links := ⟨id, id⟩
  nr_process := 0
  last_pid := 0
  next_safe := 0
  current := 0
  allocated := []

/-- The state behind `proc_init`. -/
def afterProcInit : Option (Procs Nat) :=
  (doFork 20 (procInit beforeProcInit 0) (some 1) true true).toOption.map Prod.snd

/-- `proc_init` is the start of a run. -/
theorem procRun_afterProcInit {s : Procs Nat} (h : afterProcInit = some s) : ProcRun 0 1 s := by
  obtain ⟨ret, h⟩ := toOption_snd h
  exact .init beforeProcInit 20 ret (by decide) h

/-- `initproc` forks 2 and waits for a child. 2 forks 3 and 4. -/
def familyCalls : List ProcCall := [.schedule, .fork 2, .wait 0, .fork 3, .fork 4]

/-- 2 exits, and `initproc`, which wakes up, reaps it. -/
def reapCalls : List ProcCall := [.exit, .wait 0]

/-- The processes 2, with two children, and then 3 and 4 as children of `initproc`, on the process
list, on a hash list and in the list of children. -/
def familyCheck : Option Bool := do
  let s ← afterProcInit
  let s ← procCalls familyCalls s
  let t ← (doExit 0 1 20 s 0).toOption
  let u ← procCalls reapCalls s
  return decide ((s.current = 2 ∧ s.cptr 2 = some 4 ∧ s.optr 4 = some 3 ∧ s.parent 3 = some 2 ∧
      s.parent 4 = some 2 ∧ 3 ∈ s.allocated ∧ 4 ∈ s.allocated) ∧ t.current = 1 ∧
    u.allocated = [4, 3, 1, 0] ∧ u.nr_process = 4 ∧
    [.procList, .listLink 4, .listLink 3, .listLink 1].map u.links.next =
      [.listLink 4, .listLink 3, .listLink 1, .procList] ∧
    u.links.next (.hashList (pidHashfn 4)) = .hashLink 4 ∧
    u.cptr 1 = some 3 ∧ u.optr 3 = some 4 ∧ u.optr 4 = none)

set_option maxRecDepth 20000 in
/-- The family, run. -/
theorem familyCheck_eq : familyCheck = some true := by decide +kernel

/-- A parent exits before its children: they become children of `initproc`, which wakes up and reaps
the zombie. -/
theorem procs_consistent_family : ∃ s t u : Procs Nat, ProcRun 0 1 s ∧
    doExit 0 1 20 s 0 = .ok t ∧ ProcRun 0 1 u ∧
    (s.current = 2 ∧ s.cptr 2 = some 4 ∧ s.optr 4 = some 3) ∧
    (t.state 2 = .zombie ∧ t.parent 3 = some 1 ∧ t.parent 4 = some 1 ∧ t.current = 1) ∧
    (u.allocated = [4, 3, 1, 0] ∧ u.nr_process = 4 ∧
      [.procList, .listLink 4, .listLink 3, .listLink 1].map u.links.next =
        [.listLink 4, .listLink 3, .listLink 1, .procList] ∧
      u.links.next (.hashList (pidHashfn 4)) = .hashLink 4 ∧
      u.cptr 1 = some 3 ∧ u.optr 3 = some 4 ∧ u.optr 4 = none) ∧
    Consistent 0 s ∧ Consistent 0 t ∧ Consistent 0 u := by
  have hcheck := familyCheck_eq
  unfold familyCheck at hcheck
  obtain ⟨s₀, hinit, hcheck⟩ := Option.bind_eq_some_iff.mp hcheck
  obtain ⟨s, hs, hcheck⟩ := Option.bind_eq_some_iff.mp hcheck
  obtain ⟨t, ht, hcheck⟩ := Option.bind_eq_some_iff.mp hcheck
  obtain ⟨u, hu, hcheck⟩ := Option.bind_eq_some_iff.mp hcheck
  have hfacts := of_decide_eq_true (Option.some.inj hcheck)
  obtain ⟨⟨hcur, hcptr, hoptr, hpar₃, hpar₄, h₃, h₄⟩, hnext, hend⟩ := hfacts
  have hrun := procRun_calls (procRun_afterProcInit hinit) hs
  have hexit : doExit 0 1 20 s 0 = .ok t := toOption_eq_some ht
  have hrun' := procRun_calls hrun hu
  obtain ⟨hzombie, hparents⟩ := (procs_consistent hrun).2.2 20 0 t hexit
  rw [hcur] at hzombie hparents
  refine ⟨s, t, u, hrun, hexit, hrun', ⟨hcur, hcptr, hoptr⟩, ⟨hzombie, ?_, ?_, hnext⟩, hend,
    (procs_consistent hrun).1, (procs_consistent (hrun.step (.exit 20 0 hexit))).1,
    (procs_consistent hrun').1⟩
  · rw [hparents 3 h₃, if_pos hpar₃]
  · rw [hparents 4 h₄, if_pos hpar₄]

end Ucore.Proofs.Process
