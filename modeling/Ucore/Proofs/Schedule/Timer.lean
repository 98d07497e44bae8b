import Ucore.Schedule.Timer
import Mathlib

/-!
# `Ucore.Proofs.Schedule.Timer`: the timer list counts exactly

`due` is the time that the list gives a timer: the sum of `expires` up to it. The functions of the
list change `due` as if each timer counted on its own: an addition sets the time of its timer, a
deletion clears it, and a tick lowers all the others by one (`due_add_timer_loop`, `due_del_timer`,
`due_run_timer_list`). `run_timer_list_exact` takes this to whole runs.

The list stores differences, so that a tick has to touch the first timer only. `add_timer` walks
until the sum is large enough and lowers the timer behind the new one; `del_timer` gives its
difference to the timer behind. In both cases the sums of all others stay, which is the content of
the two lemmas. A tick lowers the first difference and takes off the timers at zero, which are all
at the front. The subtractions are of `unsigned int`, and `TimersOk` keeps them from wrapping: a
timer on the list is due at one tick or more.

`run_timer_list_exact` is about any sequence of additions, deletions and ticks: a timer that is
added with `n` ticks wakes its process at the `n`-th tick and not before, unless it is deleted. No
assertion of the three functions fails.
-/

set_option autoImplicit false

namespace Ucore.Proofs.Schedule

open Ucore.Lib Ucore.Schedule

variable {K P : Type} [DecidableEq K]

/-- The ticks that remain for a timer on the list, and its process. -/
def due (k : K) : List (Timer K P) → Option (Nat × P)
  | [] => none
  | timer :: rest =>
      if timer.key = k then some (timer.expires, timer.proc)
      else (due k rest).map fun d => (timer.expires + d.1, d.2)

/-- The invariant of the list: a timer is on it once, and its time has not come. -/
structure TimersOk (timers : List (Timer K P)) : Prop where
  nodup : (timers.map Timer.key).Nodup
  pos : ∀ k d, due k timers = some d → 0 < d.1
  lt : ∀ k d, due k timers = some d → d.1 < 2 ^ 32

variable {k : K} {timer : Timer K P} {timers rest : List (Timer K P)}

/-! ### One call -/

/-- No timer is due in the empty list. -/
@[simp] theorem due_nil : due k ([] : List (Timer K P)) = none := rfl

/-- A timer is due after its own ticks, behind those of the timers in front of it. -/
theorem due_cons : due k (timer :: rest) =
    if timer.key = k then some (timer.expires, timer.proc)
    else (due k rest).map fun d => (timer.expires + d.1, d.2) := rfl

/-- A timer that is never due is not in the list. -/
theorem due_eq_none_iff : due k timers = none ↔ k ∉ timers.map Timer.key := by
  induction timers with
  | nil => simp
  | cons timer rest ih =>
      by_cases hk : timer.key = k
      · simp [due_cons, hk]
      · simp [due_cons, hk, ih, Ne.symm hk]

/-- A timer that is not linked is not in the list. -/
theorem linked_eq_false_iff : linked k timers = false ↔ k ∉ timers.map Timer.key := by
  simp [linked]

/-- Time that a timer has in front of all others comes off from the first of them. -/
theorem due_shift (e : Nat) (next : Timer K P) (h : e ≤ next.expires) :
    (due k ({ next with expires := next.expires - e } :: rest)).map (fun d => (e + d.1, d.2)) =
      due k (next :: rest) := by
  by_cases hk : next.key = k
  · simp [due_cons, hk]
    omega
  · simp only [due_cons, hk, if_false, Option.map_map]
    congr 1
    funext d
    show (e + (next.expires - e + d.1), d.2) = (next.expires + d.1, d.2)
    congr 1
    omega

/-- `add_timer` sets the time of its timer. -/
theorem due_add_timer_loop (h : timer.key ∉ timers.map Timer.key) :
    due k (add_timer_loop timer timers) =
      if timer.key = k then some (timer.expires, timer.proc) else due k timers := by
  induction timers generalizing timer with
  | nil => rfl
  | cons next rest ih =>
      have hnext : next.key ≠ timer.key := fun heq => h (by simp [heq])
      have hrest : timer.key ∉ rest.map Timer.key := fun hmem =>
        h (List.mem_cons_of_mem _ hmem)
      unfold add_timer_loop
      by_cases hlt : timer.expires < next.expires
      · rw [if_pos hlt, due_cons, due_shift _ _ (le_of_lt hlt)]
      · have hstep := @ih { timer with expires := timer.expires - next.expires } hrest
        rw [if_neg hlt, due_cons, hstep]
        by_cases hk : timer.key = k
        · have hne : next.key ≠ k := fun heq => hnext (heq.trans hk.symm)
          rw [if_neg hne, if_pos hk, if_pos hk]
          show some (next.expires + (timer.expires - next.expires), timer.proc) = _
          congr 2
          omega
        · rw [if_neg hk, if_neg hk, due_cons]

omit [DecidableEq K] in
/-- `add_timer` adds one timer. -/
theorem keys_add_timer_loop (timer : Timer K P) (timers : List (Timer K P)) :
    ((add_timer_loop timer timers).map Timer.key).Perm
      (timer.key :: timers.map Timer.key) := by
  induction timers generalizing timer with
  | nil => exact List.Perm.refl _
  | cons next rest ih =>
      unfold add_timer_loop
      by_cases hlt : timer.expires < next.expires
      · rw [if_pos hlt]
        exact List.Perm.refl _
      · rw [if_neg hlt]
        exact ((ih { timer with expires := timer.expires - next.expires }).cons _).trans
          (List.Perm.swap ..)

/-- `add_timer` of a new timer keeps the list in order. -/
theorem add_timer_ok (hok : TimersOk timers) (hpos : timer.expires ≠ 0)
    (hlt : timer.expires < 2 ^ 32) (hnew : timer.key ∉ timers.map Timer.key) :
    TimersOk (add_timer_loop timer timers) where
  nodup := (keys_add_timer_loop timer timers).nodup_iff.mpr
    (List.nodup_cons.mpr ⟨hnew, hok.nodup⟩)
  pos := by
    intro k d hd
    rw [due_add_timer_loop hnew] at hd
    by_cases hk : timer.key = k
    · rw [if_pos hk] at hd
      cases hd
      exact Nat.pos_of_ne_zero hpos
    · rw [if_neg hk] at hd
      exact hok.pos k d hd
  lt := by
    intro k d hd
    rw [due_add_timer_loop hnew] at hd
    by_cases hk : timer.key = k
    · rw [if_pos hk] at hd
      cases hd
      exact hlt
    · rw [if_neg hk] at hd
      exact hok.lt k d hd

/-- The successor of a deleted timer takes over its time. -/
theorem due_del_timer_next {e : Nat} (hlt : ∀ next ∈ rest.head?, e + next.expires < 2 ^ 32) :
    due k (del_timer_next e rest) = (due k rest).map fun d => (e + d.1, d.2) := by
  cases rest with
  | nil => rfl
  | cons next rest =>
      have hnext : (next.expires + e) % 2 ^ 32 = e + next.expires := by
        have h := hlt next rfl
        rw [Nat.mod_eq_of_lt (by omega), Nat.add_comm]
      show due k (if e ≠ 0 then _ else _) = _
      by_cases he : e = 0
      · subst he
        simp
      · rw [if_pos he, hnext, due_cons, due_cons]
        by_cases hk : next.key = k
        · rw [if_pos hk, if_pos hk]
          rfl
        · rw [if_neg hk, if_neg hk, Option.map_map]
          congr 1
          funext d
          show (e + next.expires + d.1, d.2) = (e + (next.expires + d.1), d.2)
          rw [Nat.add_assoc]

omit [DecidableEq K] in
/-- Handing the ticks on removes no timer. -/
theorem keys_del_timer_next (e : Nat) (rest : List (Timer K P)) :
    (del_timer_next e rest).map Timer.key = rest.map Timer.key := by
  cases rest with
  | nil => rfl
  | cons next rest =>
      show (if e ≠ 0 then _ else _ : List (Timer K P)).map Timer.key = _
      split <;> rfl

/-- `del_timer` removes one timer at most. -/
theorem keys_del_timer (k : K) (timers : List (Timer K P)) :
    (del_timer k timers).map Timer.key = (timers.map Timer.key).erase k := by
  induction timers with
  | nil => rfl
  | cons timer rest ih =>
      unfold del_timer
      by_cases hk : timer.key = k
      · rw [if_pos hk, keys_del_timer_next, List.map_cons, hk, List.erase_cons_head]
      · rw [if_neg hk, List.map_cons, ih, List.map_cons, List.erase_cons_tail]
        simpa using hk

/-- What is known of the timers behind the first. -/
theorem due_of_rest (hnodup : ((timer :: rest).map Timer.key).Nodup) {d : Nat × P}
    (hd : due k rest = some d) : due k (timer :: rest) = some (timer.expires + d.1, d.2) := by
  have hne : timer.key ≠ k := by
    rintro rfl
    have hnone := due_eq_none_iff.mpr (List.nodup_cons.mp hnodup).1
    rw [hnone] at hd
    cases hd
  rw [due_cons, if_neg hne, hd]
  rfl

/-- `del_timer` clears the time of its timer. -/
theorem due_del_timer {k' : K} (hnodup : (timers.map Timer.key).Nodup)
    (hlt : ∀ k d, due k timers = some d → d.1 < 2 ^ 32) :
    due k' (del_timer k timers) = if k = k' then none else due k' timers := by
  by_cases hkk : k = k'
  · rw [if_pos hkk, due_eq_none_iff, keys_del_timer, ← hkk]
    exact List.Nodup.not_mem_erase hnodup
  · rw [if_neg hkk]
    induction timers with
    | nil => rfl
    | cons timer rest ih =>
        have hrest := List.nodup_cons.mp hnodup
        unfold del_timer
        by_cases hk : timer.key = k
        · rw [if_pos hk, due_cons, if_neg fun heq => hkk (hk.symm.trans heq)]
          apply due_del_timer_next
          intro next hnext
          obtain ⟨rest, rfl⟩ : ∃ rest', rest = next :: rest' := by
            cases rest with
            | nil => cases hnext
            | cons a rest =>
                cases hnext
                exact ⟨rest, rfl⟩
          -- The successor is due after the sum of both.
          have hself : due next.key (next :: rest) = some (next.expires, next.proc) := by
            rw [due_cons, if_pos rfl]
          exact hlt next.key _ (due_of_rest hnodup hself)
        · rw [if_neg hk, due_cons, due_cons]
          congr 1
          rw [ih hrest.2]
          intro c d hd
          have h := hlt c _ (due_of_rest hnodup hd)
          dsimp only at h
          omega

/-- `del_timer` keeps the list in order. -/
theorem del_timer_ok (hok : TimersOk timers) (k : K) : TimersOk (del_timer k timers) where
  nodup := by
    rw [keys_del_timer]
    exact hok.nodup.erase k
  pos := by
    intro c d hd
    rw [due_del_timer hok.nodup hok.lt] at hd
    by_cases hk : k = c
    · rw [if_pos hk] at hd
      cases hd
    · rw [if_neg hk] at hd
      exact hok.pos c d hd
  lt := by
    intro c d hd
    rw [due_del_timer hok.nodup hok.lt] at hd
    by_cases hk : k = c
    · rw [if_pos hk] at hd
      cases hd
    · rw [if_neg hk] at hd
      exact hok.lt c d hd

omit [DecidableEq K] in
/-- `run_timer_list` takes the timers from the front. -/
theorem run_timer_list_loop_append (timers : List (Timer K P)) :
    (run_timer_list_loop timers).2 ++ (run_timer_list_loop timers).1 = timers := by
  induction timers with
  | nil => rfl
  | cons timer rest ih =>
      unfold run_timer_list_loop
      by_cases h : timer.expires = 0
      · rw [if_pos h]
        show timer :: (_ ++ _) = _
        rw [ih]
      · rw [if_neg h]
        rfl

/-- The loop takes off the timers that are due now. -/
theorem due_run_timer_list_loop (hnodup : (timers.map Timer.key).Nodup) :
    due k (run_timer_list_loop timers).1 =
        (due k timers).bind (fun d => if d.1 = 0 then none else some d) ∧
      ∀ p, (∃ t ∈ (run_timer_list_loop timers).2, t.key = k ∧ t.proc = p) ↔
        due k timers = some (0, p) := by
  induction timers with
  | nil => simp [run_timer_list_loop]
  | cons timer rest ih =>
      have hrest := List.nodup_cons.mp hnodup
      obtain ⟨ih₁, ih₂⟩ := ih hrest.2
      unfold run_timer_list_loop
      -- A timer at 0 goes off together with those at 0 behind it. Each entry counts from the one
      -- before it, so they are all due now.
      by_cases hzero : timer.expires = 0
      · rw [if_pos hzero]
        dsimp only
        by_cases hk : timer.key = k
        · have hnone : due k rest = none := by
            rw [due_eq_none_iff, ← hk]
            exact hrest.1
          rw [hnone] at ih₁ ih₂
          refine ⟨?_, fun p => ?_⟩
          · rw [ih₁, due_cons, if_pos hk, hzero]
            rfl
          · have hrest' : ¬ ∃ t ∈ (run_timer_list_loop rest).2, t.key = k ∧ t.proc = p := by
              rw [ih₂]
              simp
            rw [due_cons, if_pos hk, hzero]
            constructor
            · rintro ⟨t, ht, htk, htp⟩
              rcases List.mem_cons.mp ht with rfl | ht
              · rw [htp]
              · exact absurd ⟨t, ht, htk, htp⟩ hrest'
            · intro heq
              cases heq
              exact ⟨timer, List.mem_cons_self, hk, rfl⟩
        -- A timer of another key at 0 shifts nothing behind it.
        · have hself : due k (timer :: rest) = due k rest := by
            rw [due_cons, if_neg hk, hzero]
            simp
          rw [hself]
          refine ⟨ih₁, fun p => ?_⟩
          rw [← ih₂]
          constructor
          · rintro ⟨t, ht, htk, htp⟩
            rcases List.mem_cons.mp ht with rfl | ht
            · exact absurd htk hk
            · exact ⟨t, ht, htk, htp⟩
          · rintro ⟨t, ht, htk, htp⟩
            exact ⟨t, List.mem_cons_of_mem _ ht, htk, htp⟩
      · -- The first timer has time left, and so have the others.
        rw [if_neg hzero]
        have hpos : ∀ d, due k (timer :: rest) = some d → d.1 ≠ 0 := by
          intro d hd
          rw [due_cons] at hd
          by_cases hk : timer.key = k
          · rw [if_pos hk] at hd
            cases hd
            exact hzero
          · rw [if_neg hk] at hd
            cases hr : due k rest with
            | none =>
                rw [hr] at hd
                cases hd
            | some c =>
                rw [hr] at hd
                cases hd
                show timer.expires + c.1 ≠ 0
                omega
        refine ⟨?_, fun p => ?_⟩
        · cases hd : due k (timer :: rest) with
          | none => rfl
          | some d => exact (if_neg (hpos d hd)).symm
        · constructor
          · rintro ⟨t, ht, -⟩
            cases ht
          · intro hd
            exact absurd rfl (hpos _ hd)

/-- **`run_timer_list` counts every timer down by one**, and it wakes up those whose time has
come. Its assertion holds. -/
theorem due_run_timer_list (hok : TimersOk timers) :
    ∃ timers' expired, run_timer_list timers = .ok (timers', expired) ∧ TimersOk timers' ∧
      (expired.map Timer.key).Nodup ∧
      ∀ k, due k timers' =
          (due k timers).bind (fun d => if d.1 = 1 then none else some (d.1 - 1, d.2)) ∧
        ∀ p, (∃ t ∈ expired, t.key = k ∧ t.proc = p) ↔ due k timers = some (1, p) := by
  cases timers with
  | nil => exact ⟨[], [], rfl, hok, List.nodup_nil, fun k => ⟨rfl, by simp⟩⟩
  | cons timer rest =>
      have hself : due timer.key (timer :: rest) = some (timer.expires, timer.proc) := by
        rw [due_cons, if_pos rfl]
      have hpos : 0 < timer.expires := hok.pos _ _ hself
      -- `timer->expires --` on the first timer takes one tick off every timer, since the others
      -- count from it.
      generalize htick : ({ timer with expires := timer.expires - 1 } : Timer K P) :: rest = ticked
      have hnodup : (ticked.map Timer.key).Nodup := by
        rw [← htick]
        exact hok.nodup
      have hdue : ∀ k, due k (timer :: rest) = (due k ticked).map fun d => (1 + d.1, d.2) := by
        intro k
        rw [← htick]
        exact (due_shift 1 timer hpos).symm
      have hloop := fun k => due_run_timer_list_loop (k := k) hnodup
      have happend := run_timer_list_loop_append ticked
      refine ⟨(run_timer_list_loop ticked).1, (run_timer_list_loop ticked).2, ?_, ⟨?_, ?_, ?_⟩,
        ?_, fun k => ⟨?_, fun p => ?_⟩⟩
      -- `assert(timer->expires != 0)`
      · show (if timer.expires = 0 then _ else _) = _
        rw [if_neg (by omega), htick]
      -- The list that is left: its keys, that no timer is at 0, and the bound on the sums.
      · rw [← happend, List.map_append] at hnodup
        exact hnodup.of_append_right
      · intro k d hd
        rw [(hloop k).1] at hd
        obtain ⟨c, -, hc⟩ := Option.bind_eq_some_iff.mp hd
        by_cases hzero : c.1 = 0
        · rw [if_pos hzero] at hc
          cases hc
        · rw [if_neg hzero] at hc
          cases hc
          exact Nat.pos_of_ne_zero hzero
      · intro k d hd
        rw [(hloop k).1] at hd
        obtain ⟨c, hc, hcd⟩ := Option.bind_eq_some_iff.mp hd
        have hlt := hok.lt k (1 + c.1, c.2) (by rw [hdue, hc]; rfl)
        by_cases hzero : c.1 = 0
        · rw [if_pos hzero] at hcd
          cases hcd
        · rw [if_neg hzero] at hcd
          cases hcd
          dsimp only at hlt
          omega
      · rw [← happend, List.map_append] at hnodup
        exact hnodup.of_append_left
      -- When a timer is due afterwards.
      · rw [(hloop k).1, hdue]
        cases due k ticked with
        | none => rfl
        | some d =>
            show (if d.1 = 0 then none else some d) =
              if 1 + d.1 = 1 then none else some (1 + d.1 - 1, d.2)
            by_cases hzero : d.1 = 0
            · rw [if_pos hzero, if_pos (by omega)]
            · rw [if_neg hzero, if_neg (by omega), Nat.add_sub_cancel_left]
      -- Which timers have gone off.
      · rw [(hloop k).2, hdue]
        cases due k ticked with
        | none => simp
        | some d =>
            obtain ⟨c, q⟩ := d
            have hone : 1 + c = 1 ↔ c = 0 := by omega
            simp only [Option.map_some, Option.some.injEq, Prod.mk.injEq, hone]

/-! ### Runs -/

/-- The number of ticks in a log. -/
def ticks : List (TimerCall K P) → Nat
  | [] => 0
  | .tick :: log => ticks log + 1
  | _ :: log => ticks log

/-- The calls neither add nor delete the timer. -/
def Leaves (k : K) (log : List (TimerCall K P)) : Prop :=
  ∀ call ∈ log, call ≠ .del k ∧ ∀ n p, call ≠ .add k n p

/-- The addition of the timer that is still in effect: the time, the process, and the ticks
since. -/
def Added (k : K) (n : Nat) (p : P) (m : Nat) (log : List (TimerCall K P)) : Prop :=
  ∃ since before, ∃ e : Fin (2 ^ 32), log = since ++ .add k e p :: before ∧ e.val = n ∧
    Leaves k since ∧ ticks since = m

variable {log : List (TimerCall K P)}

/-- `add_timer` returns when the timer is new and has time. -/
theorem add_timer_eq_ok {timers' : List (Timer K P)} (h : add_timer timer timers = .ok timers') :
    timer.expires ≠ 0 ∧ timer.key ∉ timers.map Timer.key ∧
      timers' = add_timer_loop timer timers := by
  unfold add_timer at h
  split at h
  · cases h
  · rename_i hok
    rw [not_or, Bool.not_eq_true, linked_eq_false_iff] at hok
    cases h
    exact ⟨hok.1, hok.2, rfl⟩

/-- The list of every run is sound, and it holds exactly the timers that have been added and
whose time has not come, each with the time that remains for it. -/
theorem timers_of_run (hrun : TimerRun log timers) :
    TimersOk timers ∧ ∀ k n p m, Added k n p m log →
      due k timers = if m < n then some (n - m, p) else none := by
  induction hrun with
  | init =>
      refine ⟨⟨List.nodup_nil, ?_, ?_⟩, ?_⟩
      · intro k d hd
        cases hd
      · intro k d hd
        cases hd
      · rintro k n p m ⟨since, before, e, heq, -⟩
        exact absurd heq (by simp)
  | @step log timers timers' expired call hrun hcall ih =>
      obtain ⟨hok, hdue⟩ := ih
      -- An addition still in effect is that of this call, or of the log behind it.
      have hcases : ∀ k n p m, Added k n p m (call :: log) →
          (∃ e : Fin (2 ^ 32), call = .add k e p ∧ e.val = n ∧ m = 0) ∨
          (∃ m', Added k n p m' log ∧ m = m' + ticks [call]) ∧ call ≠ .del k ∧
            ∀ n p, call ≠ .add k n p := by
        rintro k n p m ⟨since, before, e, heq, hn, hleaves, hm⟩
        cases since with
        | nil =>
            cases heq
            exact Or.inl ⟨e, rfl, hn, hm.symm⟩
        | cons c since =>
            cases heq
            refine Or.inr ⟨⟨ticks since, ⟨since, before, e, rfl, hn, ?_, rfl⟩, ?_⟩,
              hleaves _ List.mem_cons_self⟩
            · exact fun c hc => hleaves c (List.mem_cons_of_mem _ hc)
            · rw [← hm]
              cases call <;> rfl
      cases call with
      | add key e proc =>
          obtain ⟨timers₁, hadd, hret⟩ := Halt.bind_eq_ok.mp hcall
          cases hret
          obtain ⟨hpos, hnew, rfl⟩ := add_timer_eq_ok hadd
          refine ⟨add_timer_ok hok hpos e.isLt hnew, ?_⟩
          intro k n p m hadded
          rw [due_add_timer_loop hnew]
          rcases hcases k n p m hadded with ⟨e', heq, hn, rfl⟩ | ⟨⟨m', hm, heq⟩, -, hother⟩
          · cases heq
            rw [if_pos rfl, ← hn, if_pos (Nat.pos_of_ne_zero hpos)]
            rfl
          · have hne : key ≠ k := by
              rintro rfl
              exact hother e proc rfl
            rw [if_neg hne, heq]
            exact hdue k n p m' hm
      | del key =>
          cases hcall
          refine ⟨del_timer_ok hok key, ?_⟩
          intro k n p m hadded
          rw [due_del_timer hok.nodup hok.lt]
          rcases hcases k n p m hadded with ⟨e', heq, -⟩ | ⟨⟨m', hm, heq⟩, hdel, -⟩
          · cases heq
          · have hne : key ≠ k := by
              rintro rfl
              exact hdel rfl
            rw [if_neg hne, heq]
            exact hdue k n p m' hm
      | tick =>
          obtain ⟨timers₁, expired₁, htick, hok₁, -, hdue₁⟩ := due_run_timer_list hok
          have heq := htick.symm.trans hcall
          cases heq
          refine ⟨hok₁, ?_⟩
          intro k n p m hadded
          rw [(hdue₁ k).1]
          rcases hcases k n p m hadded with ⟨e', heq, -⟩ | ⟨⟨m', hm, rfl⟩, -⟩
          · cases heq
          · have htick₁ : ticks [(.tick : TimerCall K P)] = 1 := rfl
            rw [hdue k n p m' hm, htick₁]
            by_cases hlt : m' < n
            · rw [if_pos hlt]
              show (if n - m' = 1 then none else some (n - m' - 1, p)) = _
              by_cases hlast : n - m' = 1
              · rw [if_pos hlast, if_neg (by omega)]
              · rw [if_neg hlast, if_pos (by omega), Nat.sub_sub]
            · rw [if_neg hlt, if_neg (by omega)]
              rfl

/-- The time of a timer is the sum of `expires` up to it. -/
theorem due_split {front back : List (Timer K P)}
    (hnodup : ((front ++ timer :: back).map Timer.key).Nodup) :
    due timer.key (front ++ timer :: back) =
      some (((front ++ [timer]).map Timer.expires).sum, timer.proc) := by
  induction front with
  | nil => simp [due_cons]
  | cons next front ih =>
      rw [List.cons_append, List.map_cons] at hnodup
      have hrest := List.nodup_cons.mp hnodup
      have hne : next.key ≠ timer.key := by
        intro heq
        apply hrest.1
        rw [heq, List.map_append]
        exact List.mem_append_right _ List.mem_cons_self
      rw [List.cons_append, due_cons, if_neg hne, ih hrest.2]
      rfl

/-- Every timer on the list has been added, and not deleted since. -/
theorem added_of_mem (hrun : TimerRun log timers) (hk : k ∈ timers.map Timer.key) :
    ∃ n p m, Added k n p m log := by
  induction hrun with
  | init => cases hk
  | @step log timers timers' expired call hrun hcall ih =>
      have hok := (timers_of_run hrun).1
      -- The call has left the timer alone, unless it has added it.
      have hlater : k ∈ timers.map Timer.key → call ≠ .del k → (∀ n p, call ≠ .add k n p) →
          ∃ n p m, Added k n p m (call :: log) := by
        intro hold hdel hadd
        obtain ⟨n, p, m, since, before, e, rfl, hn, hleaves, hm⟩ := ih hold
        refine ⟨n, p, ticks (call :: since), call :: since, before, e, rfl, hn, ?_, rfl⟩
        intro c hc
        rcases List.mem_cons.mp hc with rfl | hc
        · exact ⟨hdel, hadd⟩
        · exact hleaves c hc
      cases call with
      | add key e proc =>
          obtain ⟨timers₁, hadd, hret⟩ := Halt.bind_eq_ok.mp hcall
          cases hret
          obtain ⟨-, hnew, rfl⟩ := add_timer_eq_ok hadd
          rcases List.mem_cons.mp ((keys_add_timer_loop _ _).mem_iff.mp hk) with rfl | hold
          · exact ⟨e.val, proc, 0, [], log, e, rfl, rfl, fun c hc => (List.not_mem_nil hc).elim, rfl⟩
          · apply hlater hold (by simp)
            rintro n p heq
            cases heq
            exact hnew hold
      | del key =>
          cases hcall
          rw [keys_del_timer] at hk
          apply hlater (List.mem_of_mem_erase hk)
          · rintro heq
            cases heq
            exact List.Nodup.not_mem_erase hok.nodup hk
          · simp
      | tick =>
          obtain ⟨timers₁, expired₁, htick, -, -, hdue⟩ := due_run_timer_list hok
          cases htick.symm.trans hcall
          apply hlater _ (by simp) (by simp)
          by_contra hold
          have hnone := (hdue k).1
          rw [due_eq_none_iff.mpr hold, Option.bind_none, due_eq_none_iff] at hnone
          exact hnone hk

/-- **The timer list is exact.** Take any run of additions, deletions and ticks. A timer that
was added with `n` ticks, `m` ticks ago, and has not been deleted since is on the list as
long as `m < n`, and then the sum of `expires` up to it is `n - m`. The next
`run_timer_list` returns, so the assertion about the first timer holds, and it wakes up the
process of the timer, once, exactly when it is the `n`-th since the addition. Every timer on
the list has been added so. -/
theorem run_timer_list_exact (hrun : TimerRun log timers) :
    (∃ timers' expired, run_timer_list timers = .ok (timers', expired) ∧
      (expired.map Timer.key).Nodup ∧ ∀ k n p m, Added k n p m log →
        ((∃ t ∈ expired, t.key = k ∧ t.proc = p) ↔ m + 1 = n)) ∧
    (∀ k n p m, Added k n p m log → (k ∈ timers.map Timer.key ↔ m < n)) ∧
    ∀ front t back, timers = front ++ t :: back → ∃ n m, Added t.key n t.proc m log ∧
      ((front ++ [t]).map Timer.expires).sum + m = n := by
  obtain ⟨hok, hdue⟩ := timers_of_run hrun
  refine ⟨?_, ?_, ?_⟩
  · obtain ⟨timers', expired, htick, -, hnodup, hfired⟩ := due_run_timer_list hok
    refine ⟨timers', expired, htick, hnodup, ?_⟩
    intro k n p m hadded
    rw [(hfired k).2, hdue k n p m hadded]
    by_cases hlt : m < n
    · have hone : n - m = 1 ↔ m + 1 = n := by omega
      simp [hlt, hone]
    · rw [if_neg hlt]
      constructor
      · intro h
        cases h
      · intro h
        omega
  · intro k n p m hadded
    have h := hdue k n p m hadded
    by_cases hlt : m < n
    · rw [if_pos hlt] at h
      refine iff_of_true ?_ hlt
      by_contra hout
      rw [due_eq_none_iff.mpr hout] at h
      cases h
    · rw [if_neg hlt, due_eq_none_iff] at h
      exact iff_of_false h hlt
  · rintro front t back rfl
    have hmem : t.key ∈ (front ++ t :: back).map Timer.key :=
      List.mem_map_of_mem (List.mem_append_right _ List.mem_cons_self)
    obtain ⟨n, p, m, hadded⟩ := added_of_mem hrun hmem
    have h := hdue t.key n p m hadded
    rw [due_split hok.nodup] at h
    by_cases hlt : m < n
    · rw [if_pos hlt, Option.some.injEq, Prod.mk.injEq] at h
      obtain ⟨hsum, rfl⟩ := h
      exact ⟨n, m, hadded, by omega⟩
    · rw [if_neg hlt] at h
      cases h

/-- Two timers of two and three ticks, and one tick. -/
def twoTimers : List (TimerCall Nat Nat) := [.tick, .add 1 3 11, .add 0 2 10]

/-- The two timers have been added, one after the other. -/
theorem timerRun_twoTimers : TimerRun twoTimers [⟨0, 1, 10⟩, ⟨1, 1, 11⟩] :=
  .step .tick (.step (.add 1 3 11)
    (.step (.add 0 2 10) .init rfl) rfl) rfl

/-- The next tick is the second, and it wakes up the first process. -/
theorem twoTimers_fires : ∃ timers' expired,
    run_timer_list [⟨0, 1, 10⟩, ⟨1, 1, 11⟩] = .ok (timers', expired) ∧
      ∃ t ∈ expired, t.key = 0 ∧ t.proc = 10 := by
  obtain ⟨⟨timers', expired, htick, -, hfired⟩, -⟩ := run_timer_list_exact timerRun_twoTimers
  refine ⟨timers', expired, htick, (hfired 0 2 10 1 ?_).mpr rfl⟩
  refine ⟨[.tick, .add 1 3 11], [], 2, rfl, rfl, ?_, rfl⟩
  intro call hcall
  rcases List.mem_cons.mp hcall with rfl | hcall
  · simp
  · rw [List.mem_singleton.mp hcall]
    simp

end Ucore.Proofs.Schedule
