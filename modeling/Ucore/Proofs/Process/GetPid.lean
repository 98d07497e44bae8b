import Ucore.Process.Pids
import Ucore.Proofs.Process.Run

/-!
# `Ucore.Proofs.Process.GetPid`: the numbers of new processes

A pass of `get_pid` over the process list keeps that the processes it has seen have no number from
`last_pid` up to `next_safe`, and `last_pid` only moves past numbers that are in use. So each pass
that starts again has come closer to a free number (`distance`). A pass that ends leaves `last_pid`
free, and no process has a number between `last_pid` and `next_safe`. This last fact holds in every
state of a run (`PidsOk`), and makes `last_pid + 1` free as long as it is below `next_safe`.

## Termination

With fewer than `MAX_PROCESS` processes some number below `MAX_PID` is free (`exists_free`).
`getPidLoop_ends` is an induction on the distance from `last_pid` up to it, around the wrap at
`MAX_PID`. A pass passes over used numbers only, so it never jumps over the free one.

## Freshness

`getPid_ok` says what a call leaves: a number that no listed process has, from 1 up to `MAX_PID`,
and a `next_safe` that is at most the next number in use. `PidsOk.step` keeps `PidsOk` over a call:
a fork takes `last_pid`, and an end only takes numbers away. `getPid_fresh` is the result over all
runs.

## A run through all numbers

`Alone` and `WithChild` are the two states that `initproc` is in while children come and go one at a
time. A child that is forked, exits and is reaped brings `last_pid` up by one (`exists_alone`, by
induction on the number). In `getPid_fresh_wraps` this goes on until `last_pid` is the largest
number, and then `get_pid` wraps around to the smallest one that is free.
-/

set_option autoImplicit false
set_option linter.unusedSectionVars false

namespace Ucore.Proofs.Process

open Ucore.Lib Ucore.Lib.Links Ucore.Libs Ucore.Schedule Ucore.Process

variable {P : Type} [DecidableEq P] {order : List P} {bucket : Nat → List P} {kids : P → List P}
  {s s' : Procs P} {p : P} {idleproc initproc : P} {fuel : Nat}

/-! ### One pass -/

/-- What holds in a pass behind the processes `done`. -/
structure PassOk (s : Procs P) (done : List P) (last_pid next_safe : Int) : Prop where
  pos : 1 ≤ last_pid
  lt : last_pid < next_safe
  le : next_safe ≤ MAX_PID
  gap : ∀ p ∈ done, s.pid p < last_pid ∨ next_safe ≤ s.pid p

/-- All numbers from `lo` up to `hi` are in use. -/
def Used (s : Procs P) (order : List P) (lo hi : Int) : Prop :=
  ∀ i, lo ≤ i → i < hi → ∃ p ∈ order, s.pid p = i

/-- One more number in use. -/
theorem Used.snoc {lo hi : Int} (h : Used s order lo hi) (hp : p ∈ order) (hpid : s.pid p = hi) :
    Used s order lo (hi + 1) := by
  intro i hlo hhi
  by_cases hi' : i < hi
  · exact h i hlo hi'
  · exact ⟨p, hp, by omega⟩

/-- The rest of a pass from `le` on: it ends, or it finds that the numbers up to `raw` are in use and
starts again. The induction is on the processes that are left. -/
theorem getPidLoop_pass {start : Int} : ∀ (xs done : List P) (le : ListNode P)
    (last_pid next_safe : Int), s.links.Walk le (xs.map .listLink) .procList →
    (∀ p ∈ xs, p ∈ order) → PassOk s done last_pid next_safe → start ≤ last_pid →
    Used s order start last_pid →
    (∃ last_pid' next_safe', PassOk s (done ++ xs) last_pid' next_safe' ∧
      ∀ fuel, getPidLoop s (fuel + xs.length + 1) le last_pid next_safe =
        .ok (last_pid', next_safe')) ∨
    ∃ k raw, start < raw ∧ raw ≤ MAX_PID ∧ Used s order start raw ∧
      ∀ fuel, getPidLoop s (fuel + k) le last_pid next_safe =
        getPidLoop s fuel .procList (if MAX_PID ≤ raw then 1 else raw) MAX_PID := by
  intro xs
  induction xs with
  | nil =>
      intro done le last_pid next_safe hwalk _ hpass _ _
      have hnext : s.links.next le = .procList := hwalk
      refine Or.inl ⟨last_pid, next_safe, by rwa [List.append_nil], fun fuel => ?_⟩
      rw [getPidLoop, hnext]
  | cons p ps ih =>
      intro done le last_pid next_safe hwalk hmem hpass hstart hused
      obtain ⟨hnext, hwalk'⟩ : s.links.next le = .listLink p ∧
        s.links.Walk (.listLink p) (ps.map .listLink) .procList := hwalk
      have hp : p ∈ order := hmem p List.mem_cons_self
      have hps : ∀ q ∈ ps, q ∈ order := fun q hq => hmem q (List.mem_cons_of_mem p hq)
      have hpos := hpass.pos
      have hlt := hpass.lt
      have hle := hpass.le
      -- the rest of the pass behind `p`
      have hrest : ∀ (last' next' : Int), PassOk s (done ++ [p]) last' next' → start ≤ last' →
          Used s order start last' →
          (∀ fuel, getPidLoop s (fuel + 1) le last_pid next_safe =
            getPidLoop s fuel (.listLink p) last' next') →
          (∃ last_pid' next_safe', PassOk s (done ++ p :: ps) last_pid' next_safe' ∧
            ∀ fuel, getPidLoop s (fuel + (p :: ps).length + 1) le last_pid next_safe =
              .ok (last_pid', next_safe')) ∨
          ∃ k raw, start < raw ∧ raw ≤ MAX_PID ∧ Used s order start raw ∧
            ∀ fuel, getPidLoop s (fuel + k) le last_pid next_safe =
              getPidLoop s fuel .procList (if MAX_PID ≤ raw then 1 else raw) MAX_PID := by
        intro last' next' hpass' hstart' hused' hstep
        rcases ih (done ++ [p]) (.listLink p) last' next' hwalk' hps hpass' hstart' hused' with
          ⟨l, n, hend, hrun⟩ | ⟨k, raw, hraw, hmax, hall, hrun⟩
        · rw [List.append_assoc] at hend
          refine Or.inl ⟨l, n, hend, fun fuel => ?_⟩
          rw [hstep, List.length_cons, ← Nat.add_assoc]
          exact hrun fuel
        · refine Or.inr ⟨k + 1, raw, hraw, hmax, hall, fun fuel => ?_⟩
          rw [← Nat.add_assoc, hstep]
          exact hrun fuel
      have hseen : ∀ (last' next' : Int), last_pid ≤ last' → next' ≤ next_safe →
          s.pid p < last' ∨ next' ≤ s.pid p →
          ∀ q ∈ done ++ [p], s.pid q < last' ∨ next' ≤ s.pid q := by
        intro last' next' hl hn hpp q hq
        rcases List.mem_append.mp hq with hq' | hq'
        · have hgap := hpass.gap q hq'
          omega
        · rwa [List.mem_singleton.mp hq']
      by_cases heq : s.pid p = last_pid
      · have hsnoc := hused.snoc hp heq
        by_cases hsafe : next_safe ≤ last_pid + 1
        · -- the pass starts again
          refine Or.inr ⟨1, last_pid + 1, by omega, by omega, hsnoc, fun fuel => ?_⟩
          rw [getPidLoop, hnext]
          dsimp only
          rw [if_pos heq, if_pos hsafe]
        · refine hrest (last_pid + 1) next_safe ⟨by omega, by omega, hle, ?_⟩ (by omega) hsnoc
            fun fuel => ?_
          · exact hseen _ _ (by omega) (Int.le_refl _) (by omega)
          · rw [getPidLoop, hnext]
            dsimp only
            rw [if_pos heq, if_neg hsafe]
      · by_cases hbetween : last_pid < s.pid p ∧ s.pid p < next_safe
        · refine hrest last_pid (s.pid p) ⟨hpos, hbetween.1, by omega, ?_⟩ hstart hused
            fun fuel => ?_
          · exact hseen _ _ (Int.le_refl _) (by omega) (by omega)
          · rw [getPidLoop, hnext]
            dsimp only
            rw [if_neg heq, if_pos hbetween]
        · refine hrest last_pid next_safe ⟨hpos, hlt, hle, ?_⟩ hstart hused fun fuel => ?_
          · exact hseen _ _ (Int.le_refl _) (Int.le_refl _) (by omega)
          · rw [getPidLoop, hnext]
            dsimp only
            rw [if_neg heq, if_neg hbetween]

/-! ### All passes -/

/-- How far a scan that wraps around at `MAX_PID` is from the number `free`. -/
def distance (free last_pid : Int) : Int :=
  if last_pid ≤ free then free - last_pid else MAX_PID - last_pid + free

/-- The scan ends when a number is free. The induction is on the distance from it. -/
theorem getPidLoop_ends (hring : s.links.Ring .procList (order.map .listLink)) {free : Int}
    (hfree : ∀ p ∈ order, s.pid p ≠ free) (hpos : 1 ≤ free) (hmax : free < MAX_PID) :
    ∀ (n : Nat) (last_pid : Int), distance free last_pid < n → 1 ≤ last_pid → last_pid < MAX_PID →
    ∃ fuel last_pid' next_safe', PassOk s order last_pid' next_safe' ∧
      getPidLoop s fuel .procList last_pid MAX_PID = .ok (last_pid', next_safe') := by
  intro n
  induction n with
  | zero =>
      intro last_pid hdist hl hlm
      unfold distance at hdist
      split at hdist <;> omega
  | succ n ih =>
      intro last_pid hdist hl hlm
      have hpass : PassOk s [] last_pid MAX_PID :=
        ⟨hl, hlm, Int.le_refl _, fun _ hp => by cases hp⟩
      have hused : Used s order last_pid last_pid := fun i hlo hhi => absurd hhi (by omega)
      rcases getPidLoop_pass order [] .procList last_pid MAX_PID hring.seg.walk (fun _ hp => hp) hpass
        (Int.le_refl _) hused with ⟨l, m, hend, hrun⟩ | ⟨k, raw, hraw, hrawmax, hall, hrun⟩
      · exact ⟨0 + order.length + 1, l, m, hend, hrun 0⟩
      · -- `free` is not among the numbers in use
        have hskip : free < last_pid ∨ raw ≤ free := by
          by_contra hin
          obtain ⟨p, hp, hpid⟩ := hall free (by omega) (by omega)
          exact hfree p hp hpid
        have hnext : distance free (if MAX_PID ≤ raw then 1 else raw) < n ∧
            1 ≤ (if MAX_PID ≤ raw then 1 else raw) ∧
            (if MAX_PID ≤ raw then 1 else raw) < MAX_PID := by
          unfold distance at hdist ⊢
          unfold MAX_PID MAX_PROCESS at *
          split_ifs at hdist ⊢ <;> omega
        obtain ⟨fuel, l, m, hend, hloop⟩ := ih _ hnext.1 hnext.2.1 hnext.2.2
        exact ⟨fuel + k, l, m, hend, (hrun fuel).trans hloop⟩

/-- A number is free when there are fewer than `MAX_PROCESS` processes. -/
theorem exists_free (hlen : (order.length : Int) < MAX_PROCESS) :
    ∃ free, 1 ≤ free ∧ free < MAX_PID ∧ ∀ p ∈ order, s.pid p ≠ free := by
  by_contra hnot
  push Not at hnot
  have hsub : Finset.Ico 1 MAX_PID ⊆ (order.map s.pid).toFinset := by
    intro i hi
    obtain ⟨hlo, hhi⟩ := Finset.mem_Ico.mp hi
    obtain ⟨p, hp, hpid⟩ := hnot i hlo hhi
    rw [List.mem_toFinset]
    exact List.mem_map.mpr ⟨p, hp, hpid⟩
  have hcard := (Finset.card_le_card hsub).trans (List.toFinset_card_le _)
  rw [Int.card_Ico, List.length_map] at hcard
  unfold MAX_PID MAX_PROCESS at *
  omega

/-- More fuel does not change what a scan returns. -/
theorem getPidLoop_mono {r : Int × Int} (k : Nat) : ∀ {fuel : Nat} {le : ListNode P}
    {last_pid next_safe : Int}, getPidLoop s fuel le last_pid next_safe = .ok r →
    getPidLoop s (fuel + k) le last_pid next_safe = .ok r := by
  intro fuel
  induction fuel with
  | zero =>
      intro le last_pid next_safe h
      cases h
  | succ fuel ih =>
      intro le last_pid next_safe h
      rw [Nat.add_right_comm, getPidLoop]
      rw [getPidLoop] at h
      split at h
      · split at h
        · split at h
          · rename_i hpid hsafe
            rw [if_pos hpid, if_pos hsafe]
            exact ih h
          · rename_i hpid hsafe
            rw [if_pos hpid, if_neg hsafe]
            exact ih h
        · split at h
          · rename_i hpid hbetween
            rw [if_neg hpid, if_pos hbetween]
            exact ih h
          · rename_i hpid hbetween
            rw [if_neg hpid, if_neg hbetween]
            exact ih h
      · exact h

/-- What a scan that returns has found. -/
theorem getPidLoop_ok (hring : s.links.Ring .procList (order.map .listLink))
    (hlen : (order.length : Int) < MAX_PROCESS) {last_pid l m : Int} (hpos : 1 ≤ last_pid)
    (hmax : last_pid < MAX_PID)
    (hrun : getPidLoop s fuel .procList last_pid MAX_PID = .ok (l, m)) : PassOk s order l m := by
  obtain ⟨free, hf, hfm, hfree⟩ := exists_free (s := s) hlen
  obtain ⟨fuel', l', m', hend, hrun'⟩ := getPidLoop_ends hring hfree hf hfm
    ((distance free last_pid).toNat + 1) last_pid (by omega) hpos hmax
  have h₁ := getPidLoop_mono fuel' hrun
  have h₂ := getPidLoop_mono fuel hrun'
  rw [Nat.add_comm, h₂] at h₁
  obtain ⟨rfl, rfl⟩ := Prod.mk.inj (Except.ok.inj h₁)
  exact hend

/-! ### `get_pid` -/

/-- The numbers behind a call of `get_pid`, which the next one starts from. -/
structure PidsOk (idleproc : P) (s : Procs P) : Prop where
  pos : 1 ≤ s.last_pid
  le : s.next_safe ≤ MAX_PID
  gap : ∀ p ∈ s.allocated, p ≠ idleproc → s.pid p ≤ s.last_pid ∨ s.next_safe ≤ s.pid p

/-- `get_pid` returns. -/
theorem getPid_ends (hring : s.links.Ring .procList (order.map .listLink))
    (hlen : (order.length : Int) < MAX_PROCESS) (hpos : 1 ≤ s.last_pid) :
    ∃ fuel pid s', getPid fuel s = .ok (pid, s') := by
  obtain ⟨free, hf, hfm, hfree⟩ := exists_free (s := s) hlen
  have hloop : ∀ last_pid : Int, 1 ≤ last_pid → last_pid < MAX_PID →
      ∃ fuel r, getPidLoop s fuel .procList last_pid MAX_PID = .ok r := by
    intro last_pid hl hlm
    obtain ⟨fuel, l, m, -, hrun⟩ := getPidLoop_ends hring hfree hf hfm
      ((distance free last_pid).toNat + 1) last_pid (by omega) hl hlm
    exact ⟨fuel, _, hrun⟩
  by_cases hmax : MAX_PID ≤ s.last_pid + 1
  · obtain ⟨fuel, r, hrun⟩ := hloop 1 (Int.le_refl _) (by decide)
    refine ⟨fuel, r.1, { s with last_pid := r.1, next_safe := r.2 }, ?_⟩
    unfold getPid
    rw [if_pos hmax, hrun]
    rfl
  · by_cases hsafe : s.next_safe ≤ s.last_pid + 1
    · obtain ⟨fuel, r, hrun⟩ := hloop (s.last_pid + 1) (by omega) (by omega)
      refine ⟨fuel, r.1, { s with last_pid := r.1, next_safe := r.2 }, ?_⟩
      unfold getPid
      rw [if_neg hmax, if_pos hsafe, hrun]
      rfl
    · refine ⟨0, s.last_pid + 1, { s with last_pid := s.last_pid + 1 }, ?_⟩
      unfold getPid
      rw [if_neg hmax, if_neg hsafe]
      rfl

/-- The number that `get_pid` returns is free, and so are those up to the new `next_safe`. -/
theorem getPid_ok (hring : s.links.Ring .procList (order.map .listLink))
    (hlen : (order.length : Int) < MAX_PROCESS) (hpos : 1 ≤ s.last_pid)
    (hle : s.next_safe ≤ MAX_PID)
    (hgap : ∀ p ∈ order, s.pid p ≤ s.last_pid ∨ s.next_safe ≤ s.pid p) {pid : Int}
    (hrun : getPid fuel s = .ok (pid, s')) :
    PassOk s order pid s'.next_safe ∧
      s' = { s with last_pid := pid, next_safe := s'.next_safe } := by
  unfold getPid at hrun
  by_cases hmax : MAX_PID ≤ s.last_pid + 1
  · rw [if_pos hmax] at hrun
    obtain ⟨⟨l, m⟩, hloop, hret⟩ := Halt.bind_eq_ok.mp hrun
    obtain ⟨rfl, rfl⟩ := Prod.mk.inj (Except.ok.inj hret)
    exact ⟨getPidLoop_ok hring hlen (Int.le_refl _) (by decide) hloop, rfl⟩
  · rw [if_neg hmax] at hrun
    by_cases hsafe : s.next_safe ≤ s.last_pid + 1
    · rw [if_pos hsafe] at hrun
      obtain ⟨⟨l, m⟩, hloop, hret⟩ := Halt.bind_eq_ok.mp hrun
      obtain ⟨rfl, rfl⟩ := Prod.mk.inj (Except.ok.inj hret)
      exact ⟨getPidLoop_ok hring hlen (by omega) (by omega) hloop, rfl⟩
    · -- the fast path: nothing lies between `last_pid` and `next_safe`
      rw [if_neg hsafe] at hrun
      obtain ⟨rfl, rfl⟩ := Prod.mk.inj (Except.ok.inj hrun)
      refine ⟨⟨by omega, by show s.last_pid + 1 < s.next_safe; omega, hle, fun p hp => ?_⟩, rfl⟩
      have hp' := hgap p hp
      show s.pid p < s.last_pid + 1 ∨ s.next_safe ≤ s.pid p
      omega

/-! ### Runs -/

/-- No listed process has a number between `last_pid` and `next_safe`. -/
theorem PidsOk.listed (h : PidsOk idleproc s) (hok : ProcsOk idleproc s order bucket kids) :
    ∀ p ∈ order, s.pid p ≤ s.last_pid ∨ s.next_safe ≤ s.pid p := by
  intro p hp
  obtain ⟨hmem, hne⟩ := (hok.order_mem p).mp hp
  exact h.gap p hmem hne

/-- Fewer processes with the same numbers. -/
theorem PidsOk.congr (h : PidsOk idleproc s) (hpid : s'.pid = s.pid)
    (hlast : s'.last_pid = s.last_pid) (hsafe : s'.next_safe = s.next_safe)
    (halloc : ∀ p ∈ s'.allocated, p ∈ s.allocated) : PidsOk idleproc s' := by
  refine ⟨by rw [hlast]; exact h.pos, by rw [hsafe]; exact h.le, fun p hp hne => ?_⟩
  rw [hpid, hlast, hsafe]
  exact h.gap p (halloc p hp) hne

/-- A fork takes a free number. -/
theorem PidsOk.fork (h : PidsOk idleproc s) (hok : ProcsOk idleproc s order bucket kids) {proc : P}
    {ret : Int} (hfresh : proc ∉ s.allocated)
    (hrun : doFork fuel s (some proc) true true = .ok (ret, s')) : PidsOk idleproc s' := by
  have hgap := h.listed hok
  have hring := hok.rings.ring none inTable_none
  unfold doFork at hrun
  by_cases hmax : MAX_PROCESS ≤ s.nr_process
  · rw [if_pos hmax] at hrun
    obtain ⟨-, rfl⟩ := Prod.mk.inj (Except.ok.inj hrun)
    exact h
  · rw [if_neg hmax] at hrun
    dsimp only at hrun
    split at hrun
    · cases hrun
    · rw [if_neg (by simp)] at hrun
      obtain ⟨⟨pid, s₁⟩, hpid, hrun⟩ := Halt.bind_eq_ok.mp hrun
      obtain ⟨s₂, hset, hrun⟩ := Halt.bind_eq_ok.mp hrun
      obtain ⟨s₃, hwake, hret⟩ := Halt.bind_eq_ok.mp hrun
      obtain ⟨-, rfl⟩ := Prod.mk.inj (Except.ok.inj hret)
      have hother : ∀ q ∈ order, (allocProc s proc).pid q = s.pid q := by
        intro q hq
        refine Function.update_of_ne ?_ ..
        rintro rfl
        exact hfresh ((hok.order_mem q).mp hq).1
      have hlen : (order.length : Int) < MAX_PROCESS := by
        have hcount := hok.count
        omega
      obtain ⟨hpass, hs₁⟩ := getPid_ok (s := { allocProc s proc with
        parent := Function.update (allocProc s proc).parent proc
          (some (allocProc s proc).current) }) hring hlen h.pos h.le (fun q hq => by
          show (allocProc s proc).pid q ≤ s.last_pid ∨ s.next_safe ≤ (allocProc s proc).pid q
          rw [hother q hq]
          exact hgap q hq) hpid
      -- what `set_links` and `wakeup_proc` leave as it is
      have hs₂ : s₂.pid = Function.update s₁.pid proc pid ∧ s₂.last_pid = pid ∧
          s₂.next_safe = s₁.next_safe ∧ s₂.allocated = proc :: s.allocated := by
        unfold setLinks at hset
        split at hset
        · cases hset
        · obtain rfl := Except.ok.inj hset
          refine ⟨rfl, ?_, rfl, ?_⟩
          · show s₁.last_pid = pid
            rw [hs₁]
          · show s₁.allocated = proc :: s.allocated
            rw [hs₁]
            rfl
      have hs₃ : s₃.pid = s₂.pid ∧ s₃.last_pid = s₂.last_pid ∧ s₃.next_safe = s₂.next_safe ∧
          s₃.allocated = s₂.allocated := by
        obtain ⟨-, rfl | rfl⟩ := wakeupProc_cases hwake <;> exact ⟨rfl, rfl, rfl, rfl⟩
      obtain ⟨hp₂, hl₂, hn₂, ha₂⟩ := hs₂
      obtain ⟨hp₃, hl₃, hn₃, ha₃⟩ := hs₃
      refine ⟨?_, ?_, fun q hq hne => ?_⟩
      · rw [hl₃, hl₂]
        exact hpass.pos
      · rw [hn₃, hn₂]
        exact hpass.le
      · rw [hp₃, hp₂, hl₃, hl₂, hn₃, hn₂]
        by_cases hqp : q = proc
        · rw [hqp, Function.update_self]
          exact Or.inl (Int.le_refl _)
        · rw [Function.update_of_ne hqp]
          rw [ha₃, ha₂] at hq
          have hqorder := (hok.order_mem q).mpr ⟨(List.mem_cons.mp hq).resolve_left hqp, hne⟩
          have hq' := hpass.gap q hqorder
          have hpid₁ : s₁.pid q = (allocProc s proc).pid q := by rw [hs₁]
          rw [hpid₁]
          exact hq'.imp Int.le_of_lt id

/-- Taking a process off the lists leaves the numbers and the structs. -/
theorem removeLinks_frame (hrun : removeLinks (unhashProc s p) p = .ok s') :
    s'.pid = s.pid ∧ s'.last_pid = s.last_pid ∧ s'.next_safe = s.next_safe ∧
      s'.allocated = s.allocated := by
  unfold removeLinks at hrun
  dsimp only at hrun
  split at hrun
  · obtain rfl := Except.ok.inj hrun
    exact ⟨rfl, rfl, rfl, rfl⟩
  · obtain rfl := Except.ok.inj hrun
    exact ⟨rfl, rfl, rfl, rfl⟩
  · cases hrun

/-- The current process goes to sleep. -/
theorem RunOk.sleepOn (h : RunOk idleproc initproc s order bucket kids) {wait_state : BitVec 32}
    {next : P} (hidle : s.current ≠ idleproc) (hnext : CanRun (sleepOn s wait_state) next) :
    RunOk idleproc initproc (switchTo (Process.sleepOn s wait_state) next) order bucket kids := by
  have hother : ∀ x, x ≠ s.current →
      Function.update s.state s.current .sleeping x = s.state x :=
    fun x hx => Function.update_of_ne hx ..
  have hasleep : Function.update s.state s.current .sleeping s.current = .sleeping :=
    Function.update_self ..
  have hzombie : ∀ q, s.state q ≠ .zombie →
      Function.update s.state s.current .sleeping q ≠ .zombie := by
    intro q hq
    by_cases hqc : q = s.current
    · rw [hqc, hasleep]
      simp
    · rwa [hother q hqc]
  have hok : ProcsOk idleproc (Process.sleepOn s wait_state) order bucket kids := by
    refine h.toProcsOk.states rfl rfl rfl rfl rfl rfl rfl rfl (fun q hq => Or.inl (hzombie q hq))
      ((hother idleproc (Ne.symm hidle)).trans h.idle.2) fun q hq => ?_
    show Function.update s.state s.current .sleeping q = .sleeping ∨
      Function.update s.wait_state s.current wait_state q = 0
    by_cases hqc : q = s.current
    · rw [hqc, hasleep]
      exact Or.inl rfl
    · rw [hother q hqc, Function.update_of_ne hqc]
      exact h.wait q hq
  exact hok.run h.init_mem (hzombie initproc h.init_state) h.idle_parent hnext.1 hnext.2 _

/-- A step keeps the invariant. -/
theorem PidsOk.step (h : PidsOk idleproc s) (hok : RunOk idleproc initproc s order bucket kids)
    (hstep : PidStep idleproc initproc s s') :
    PidsOk idleproc s' ∧ ∃ order' bucket' kids', RunOk idleproc initproc s' order' bucket' kids' := by
  cases hstep with
  | fork fuel proc ret _ hfresh hrun =>
      refine ⟨h.fork hok.toProcsOk hfresh hrun, (hok.of_doFork ?_ hrun).1⟩
      rintro p ⟨⟩
      exact hfresh
  | exit fuel error_code s₁ next hexit hnext heq =>
      obtain ⟨⟨kids', hok'⟩, hover, -, -, hinit, hparent, -, halloc⟩ := hok.of_exitProc hexit
      have hpids : PidsOk idleproc s₁ := by
        refine h.congr ?_ ?_ ?_ fun p hp => halloc ▸ hp
        · rw [hover.rest]
        · rw [hover.rest]
        · rw [hover.rest]
      rw [heq]
      exact ⟨hpids.congr rfl rfl rfl fun _ hp => hp,
        order, bucket, kids', hok'.run hok.init_mem hinit hparent hnext.1 hnext.2 _⟩
  | wait fuel pid ret hidle hrun =>
      refine ⟨?_, (hok.of_doWait hidle hrun).1⟩
      unfold doWait at hrun
      obtain ⟨⟨found, haskid⟩, hsearch, hrun⟩ := Halt.bind_eq_ok.mp hrun
      cases found with
      | some p =>
          obtain ⟨hporder, hpar, hz⟩ := hok.toProcsOk.waitSearch hok.current_mem hsearch
          dsimp only at hrun
          split at hrun
          · cases hrun
          · obtain ⟨s₁, hremove, hret⟩ := Halt.bind_eq_ok.mp hrun
            obtain ⟨-, rfl⟩ := Prod.mk.inj (Except.ok.inj hret)
            obtain ⟨hpid, hlast, hsafe, halloc⟩ := removeLinks_frame hremove
            refine h.congr hpid hlast hsafe fun q hq => ?_
            rw [freeProc, halloc] at hq
            exact List.mem_of_mem_erase hq
      | none =>
          cases haskid with
          | false =>
              obtain ⟨-, rfl⟩ := Prod.mk.inj (Except.ok.inj hrun)
              exact h
          | true =>
              -- the call has not returned
              obtain ⟨s₁, -, hret⟩ := Halt.bind_eq_ok.mp hrun
              obtain ⟨hno, -⟩ := Prod.mk.inj (Except.ok.inj hret)
              cases hno
  | sleep wait_state next hidle hnext heq =>
      rw [heq]
      exact ⟨h.congr rfl rfl rfl fun _ hp => hp, order, bucket, kids, hok.sleepOn hidle hnext⟩
  | wakeup proc hrun =>
      have hok' := hok.toProcsOk.wakeup hrun
      obtain ⟨hz, rfl | rfl⟩ := wakeupProc_cases hrun
      · exact ⟨h, order, bucket, kids, hok⟩
      · refine ⟨h.congr rfl rfl rfl fun _ hp => hp, order, bucket, kids, hok', hok.init_mem, ?_,
          hok.current_mem, ?_, hok.idle_parent⟩
        · show Function.update s.state proc .runnable initproc ≠ .zombie
          rw [Function.update_apply]
          split
          · simp
          · exact hok.init_state
        · show Function.update s.state proc .runnable s.current = .runnable
          rw [Function.update_apply, hok.current_state, ite_self]
  | schedule next hnext heq =>
      rw [heq]
      exact ⟨h.congr rfl rfl rfl fun _ hp => hp, order, bucket, kids,
        hok.toProcsOk.run hok.init_mem hok.init_state hok.idle_parent hnext.1 hnext.2 _⟩

/-- The invariant holds in every state of a run. -/
theorem pidRun_ok (hrun : PidRun idleproc initproc s) : PidsOk idleproc s ∧
    ∃ order bucket kids, RunOk idleproc initproc s order bucket kids := by
  induction hrun with
  | init s₀ fuel pid hne hfork =>
      have hpids : PidsOk idleproc (procInit s₀ idleproc) := by
        have hpos : (1 : Int) ≤ MAX_PID := by decide
        refine ⟨hpos, Int.le_refl _, fun p hp hidle => ?_⟩
        exact absurd (List.mem_singleton.mp hp) hidle
      have hfresh : initproc ∉ (procInit s₀ idleproc).allocated :=
        fun hmem => hne (List.mem_singleton.mp hmem)
      exact ⟨hpids.fork (procInit_ok s₀ idleproc) hfresh hfork, procInit_run hne hfork⟩
  | step _ hstep ih =>
      obtain ⟨hpids, order, bucket, kids, hok⟩ := ih
      exact hpids.step hok hstep

/-- `last_pid + 1` is the next number as long as it is below `next_safe`. -/
theorem getPid_next (hmax : s.last_pid + 1 < MAX_PID) (hsafe : s.last_pid + 1 < s.next_safe) :
    getPid fuel s = .ok (s.last_pid + 1, { s with last_pid := s.last_pid + 1 }) := by
  unfold getPid
  rw [if_neg (by omega), if_neg (by omega)]
  rfl

/-- In every state of a run with fewer than `MAX_PROCESS` processes `get_pid` returns, and every
number that it can return is one that no process of the list has. No process has a number between
`last_pid` and `next_safe`, so `last_pid + 1` is right when it is below both bounds. -/
theorem getPid_fresh (hrun : PidRun idleproc initproc s) :
    ∃ order : List P, s.links.Ring .procList (order.map .listLink) ∧
      s.nr_process = order.length + 1 ∧
      (∀ p ∈ order, ¬ (s.last_pid < s.pid p ∧ s.pid p < s.next_safe)) ∧
      (s.nr_process < MAX_PROCESS →
        (∃ fuel pid s', getPid fuel s = .ok (pid, s')) ∧
        ∀ fuel pid s', getPid fuel s = .ok (pid, s') →
          1 ≤ pid ∧ pid < MAX_PID ∧ ∀ p ∈ order, s.pid p ≠ pid) ∧
      (s.last_pid + 1 < MAX_PID → s.last_pid + 1 < s.next_safe → ∀ fuel,
        getPid fuel s = .ok (s.last_pid + 1, { s with last_pid := s.last_pid + 1 })) := by
  obtain ⟨hpids, order, bucket, kids, hok⟩ := pidRun_ok hrun
  have hring := hok.rings.ring none inTable_none
  have hgap := hpids.listed hok.toProcsOk
  have hcount := hok.count
  refine ⟨order, hring, hcount, fun p hp => ?_, fun hnr => ?_,
    fun hmax hsafe fuel => getPid_next hmax hsafe⟩
  · have hp' := hgap p hp
    omega
  · have hlen : (order.length : Int) < MAX_PROCESS := by omega
    refine ⟨getPid_ends hring hlen hpids.pos, fun fuel pid s' hget => ?_⟩
    obtain ⟨hpass, -⟩ := getPid_ok hring hlen hpids.pos hpids.le hgap hget
    have hlt := hpass.lt
    have hle := hpass.le
    refine ⟨hpass.pos, by omega, fun p hp => ?_⟩
    have hp' := hpass.gap p hp
    omega

/-! ### A run that uses up the numbers -/

/-- `initproc` runs and has no child, and `last_pid` is the number given last. -/
structure Alone (idleproc initproc : P) (last_pid : Int) (s : Procs P) : Prop where
  current : s.current = initproc
  state : s.state initproc = .runnable
  wait_state : s.wait_state initproc = 0
  cptr : s.cptr initproc = none
  allocated : s.allocated = [initproc, idleproc]
  nr_process : s.nr_process = 2
  pid : s.pid initproc = 1
  last_pid : s.last_pid = last_pid
  next_safe : s.next_safe = MAX_PID

/-- `initproc` runs and has the child `p` in the state `st`, with the number `last_pid`. -/
structure WithChild (idleproc initproc p : P) (last_pid : Int) (st : ProcState) (s : Procs P) :
    Prop where
  current : s.current = initproc
  state : s.state initproc = .runnable ∧ s.state p = st
  wait_state : s.wait_state initproc = 0
  cptr : s.cptr initproc = some p ∧ s.cptr p = none
  siblings : s.yptr p = none ∧ s.optr p = none
  parent : s.parent p = some initproc
  allocated : s.allocated = [p, initproc, idleproc]
  nr_process : s.nr_process = 3
  pid : s.pid initproc = 1 ∧ s.pid p = last_pid
  last_pid : s.last_pid = last_pid
  next_safe : s.next_safe = MAX_PID

variable {last_pid : Int}

/-- The process list while `initproc` is alone. -/
theorem Alone.next (hrun : PidRun idleproc initproc s) (h : Alone idleproc initproc last_pid s) :
    s.links.next .procList = .listLink initproc ∧
      s.links.next (.listLink initproc) = .procList := by
  obtain ⟨-, order, bucket, kids, hok⟩ := pidRun_ok hrun
  have hcount := hok.count
  rw [h.nr_process] at hcount
  have hinit := hok.init_mem
  obtain ⟨p, rfl⟩ := List.length_eq_one_iff.mp (by omega : order.length = 1)
  obtain rfl := List.mem_singleton.mp hinit
  have hring := hok.rings.ring none inTable_none
  have hmid : s.links.Ring .procList ([] ++ ListNode.listLink initproc :: []) := hring
  exact ⟨hring.next_head, hmid.mid.1⟩

/-- The struct of the child is not in use. -/
theorem Alone.fresh (h : Alone idleproc initproc last_pid s) (hproc : p ≠ initproc)
    (hidle : p ≠ idleproc) : p ∉ s.allocated := by
  rw [h.allocated]
  simp [hproc, hidle]

/-- A fork gives the next number, and the child comes first in the process list. -/
theorem Alone.fork (hrun : PidRun idleproc initproc s) (h : Alone idleproc initproc last_pid s)
    (hproc : p ≠ initproc) (hlast : last_pid + 1 < MAX_PID) :
    ∃ s', doFork 0 s (some p) true true = .ok (last_pid + 1, s') ∧
      WithChild idleproc initproc p (last_pid + 1) .runnable s' ∧
      s'.links.next .procList = .listLink p ∧
      s'.links.next (.listLink p) = .listLink initproc ∧
      s'.links.next (.listLink initproc) = .procList := by
  obtain ⟨hfirst, hlink⟩ := h.next hrun
  have hnr : ¬ MAX_PROCESS ≤ s.nr_process := by
    rw [h.nr_process]
    decide
  have hwait : ¬ (allocProc s p).wait_state (allocProc s p).current ≠ 0 := by
    show ¬ Function.update s.wait_state p 0 s.current ≠ 0
    rw [h.current, Function.update_of_ne hproc.symm, h.wait_state]
    simp
  have hget : ∀ s₁ : Procs P, s₁.last_pid = last_pid → s₁.next_safe = MAX_PID →
      getPid 0 s₁ = .ok (last_pid + 1, { s₁ with last_pid := last_pid + 1 }) := by
    rintro s₁ rfl hsafe
    exact getPid_next hlast (hsafe ▸ hlast)
  unfold doFork
  rw [if_neg hnr]
  dsimp only
  rw [if_neg hwait, if_neg (by simp), hget]
  · simp only [bind, Except.bind, pure, Except.pure, allocProc, hashProc, setLinks, wakeupProc,
      Function.update_self, h.current, ne_eq, reduceCtorEq, not_false_eq_true, if_false, if_true]
    refine ⟨_, rfl, ?_, ?_⟩
    · constructor <;> simp [hproc, hproc.symm, h.state, h.wait_state, h.cptr, h.allocated,
        h.nr_process, h.pid, h.next_safe]
    · simp [listAdd, listAddAfter, Links.insertBetween, hproc.symm, hfirst, hlink]
  · exact h.last_pid
  · exact h.next_safe

/-- The child can run. -/
theorem WithChild.canRun (h : WithChild idleproc initproc p last_pid .runnable s) :
    CanRun s p := by
  refine ⟨?_, h.state.2⟩
  rw [h.allocated]
  exact List.mem_cons_self

/-- The child runs and exits, and `initproc` runs again. -/
theorem WithChild.exit (h : WithChild idleproc initproc p last_pid .runnable s)
    (hproc : p ≠ initproc) (hidle : p ≠ idleproc) :
    ∃ s₁, exitProc idleproc initproc 1 (switchTo s p) 0 = .ok s₁ ∧ CanRun s₁ initproc ∧
      WithChild idleproc initproc p last_pid .zombie (switchTo s₁ initproc) := by
  have hnowait : ¬ s.wait_state initproc = WT_CHILD := by
    rw [h.wait_state]
    decide
  unfold exitProc switchTo
  rw [if_neg hidle, if_neg hproc]
  simp only [h.parent, hnowait, if_false, bind, Except.bind, exitChildren, h.cptr.2]
  refine ⟨_, rfl, ⟨?_, ?_⟩, ?_⟩
  · simp [h.allocated]
  · simp [hproc.symm, h.state.1]
  · constructor <;> simp [hproc.symm, h.state, h.wait_state, h.cptr, h.siblings, h.parent,
      h.allocated, h.nr_process, h.pid, h.last_pid, h.next_safe]

/-- `initproc` reaps its child. -/
theorem WithChild.wait (h : WithChild idleproc initproc p last_pid .zombie s)
    (hproc : p ≠ initproc) (hidle : p ≠ idleproc) :
    ∃ s', doWait idleproc initproc 1 s 0 = .ok (some 0, s') ∧
      Alone idleproc initproc last_pid s' := by
  have hsearch : waitSearch 1 s 0 = .ok (some p, true) := by
    unfold waitSearch
    rw [if_neg (by simp), h.current, h.cptr.1]
    -- the first child is the zombie
    unfold waitLoop
    rw [if_pos h.state.2]
  unfold doWait
  rw [hsearch]
  simp only [bind, Except.bind, hproc, hidle, or_self, if_false, unhashProc, removeLinks, freeProc,
    h.siblings, h.parent, setField_none, pure, Except.pure]
  refine ⟨_, rfl, ?_⟩
  constructor <;> simp [h.current, h.state, h.wait_state, h.allocated, h.nr_process, h.pid,
    h.last_pid, h.next_safe]

/-- From a number to any larger one, with a child that comes and goes for each. -/
theorem exists_alone (hne : initproc ≠ idleproc) (hproc : p ≠ initproc)
    (hidle : p ≠ idleproc) : ∀ (n : Nat) {s : Procs P}, PidRun idleproc initproc s →
      Alone idleproc initproc last_pid s → last_pid + n < MAX_PID →
      ∃ s', PidRun idleproc initproc s' ∧ Alone idleproc initproc (last_pid + n) s' := by
  intro n
  induction n with
  | zero =>
      intro s hrun h _
      refine ⟨s, hrun, ?_⟩
      simpa using h
  | succ n ih =>
      intro s hrun h hlt
      push_cast at hlt ⊢
      obtain ⟨s₁, hrun, h⟩ := ih hrun h (by omega)
      obtain ⟨s₂, hfork, hchild, -⟩ := h.fork hrun hproc (by omega)
      have hrun₂ := hrun.step (.fork 0 p _ (h.current ▸ hne) (h.fresh hproc hidle) hfork)
      obtain ⟨s₃, hexit, hcan, hzombie⟩ := hchild.exit hproc hidle
      have hrun₃ := (hrun₂.step (.schedule p hchild.canRun rfl)).step
        (.exit 1 0 s₃ initproc hexit hcan rfl)
      obtain ⟨s₄, hwait, halone⟩ := hzombie.wait hproc hidle
      refine ⟨s₄, hrun₃.step (.wait 1 0 0 hne hwait), ?_⟩
      rwa [← Int.add_assoc]

/-- `initproc` runs for the first time. -/
def aloneCheck : Option Bool := do
  let s ← afterProcInit
  let t := switchTo s 1
  return decide (1 ∈ s.allocated ∧ s.state 1 = .runnable ∧ t.state 1 = .runnable ∧
    t.wait_state 1 = 0 ∧ t.cptr 1 = none ∧ t.allocated = [1, 0] ∧ t.nr_process = 2 ∧ t.pid 1 = 1 ∧
    t.last_pid = 1 ∧ t.next_safe = MAX_PID)

set_option maxRecDepth 20000 in
/-- The first call, run. -/
theorem aloneCheck_eq : aloneCheck = some true := by decide +kernel

/-- A run to the first call of `initproc`. -/
theorem alone_init : ∃ s : Procs Nat, PidRun 0 1 s ∧ Alone 0 1 1 s := by
  have hcheck := aloneCheck_eq
  unfold aloneCheck at hcheck
  obtain ⟨s, hinit, hcheck⟩ := Option.bind_eq_some_iff.mp hcheck
  obtain ⟨hmem, hcan, hstate, hwait, hcptr, halloc, hnr, hpid, hlast, hsafe⟩ :=
    of_decide_eq_true (Option.some.inj hcheck)
  obtain ⟨ret, hfork⟩ := toOption_snd hinit
  exact ⟨switchTo s 1, .step (.init beforeProcInit 20 ret (by decide) hfork)
    (.schedule 1 ⟨hmem, hcan⟩ rfl), rfl, hstate, hwait, hcptr, halloc, hnr, hpid, hlast, hsafe⟩

/-- `initproc` forks 8190 children and reaps all but the last one, which has the largest number. Then
`get_pid` scans the list from 1 on, which `initproc` has, and finds that 2 is free. -/
theorem getPid_fresh_wraps : ∃ s : Procs Nat, PidRun 0 1 s ∧
    s.links.Ring .procList [.listLink 2, .listLink 1] ∧ s.pid 2 = 8191 ∧ s.pid 1 = 1 ∧
    s.last_pid = 8191 ∧ getPid 3 s = .ok (2, { s with last_pid := 2, next_safe := 8191 }) ∧
    ∀ p ∈ [2, 1], s.pid p ≠ 2 := by
  obtain ⟨s₀, hrun₀, halone₀⟩ := alone_init
  obtain ⟨s₁, hrun₁, halone₁⟩ := exists_alone (p := 2) (by decide) (by decide)
    (by decide) 8189 hrun₀ halone₀ (by decide)
  obtain ⟨s, hfork, hchild, hfirst, hsecond, hthird⟩ := halone₁.fork (p := 2) hrun₁ (by decide)
    (by decide)
  have hrun := hrun₁.step (.fork 0 2 _ (halone₁.current ▸ by decide)
    (halone₁.fresh (by decide) (by decide)) hfork)
  have hget : getPid 3 s = .ok (2, { s with last_pid := 2, next_safe := 8191 }) := by
    have hpids : s.pid 2 = 8191 ∧ s.pid 1 = 1 := ⟨hchild.pid.2, hchild.pid.1⟩
    unfold getPid
    rw [if_pos]
    · simp [getPidLoop, hfirst, hsecond, hthird, hpids, MAX_PID, MAX_PROCESS, bind, Except.bind,
        pure, Except.pure]
    · rw [hchild.last_pid]
      decide
  obtain ⟨order, hring, hcount, -, hfree, -⟩ := getPid_fresh hrun
  rw [hchild.nr_process] at hcount hfree
  obtain ⟨a, b, rfl⟩ := List.length_eq_two.mp (by omega : order.length = 2)
  obtain rfl : 2 = a := ListNode.listLink.inj (hfirst.symm.trans hring.next_head)
  have hmid : s.links.Ring .procList ([] ++ ListNode.listLink 2 :: [.listLink b]) := hring
  obtain rfl : 1 = b := ListNode.listLink.inj (hsecond.symm.trans hmid.mid.1)
  exact ⟨s, hrun, hring, hchild.pid.2, hchild.pid.1, hchild.last_pid, hget,
    ((hfree (by decide)).2 3 2 _ hget).2.2⟩

end Ucore.Proofs.Process
