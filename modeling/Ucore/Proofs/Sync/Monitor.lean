import Ucore.Sync.Monitor
import Mathlib

/-!
# `Ucore.Proofs.Sync.Monitor`: the monitor passes one token

`monitor_bracketed` gives the labels at which a process holds the token, and `monitorInv_of_run` the
invariant of every run: there is one token, the two counters count the processes between their
increments and decrements, and whoever is about to hand the token to a semaphore has somebody to
take it (`Taker`).

## The token

A monitor is `mutex`, `next` and one semaphore for each condition variable, and the sum of their
values and of the active processes is one. This is the general fact about semaphores that pass a
token (`Ucore.Lib.Semaphore`), for which it is enough that each process has the token from a `down`
to the next `up`. Where that is in the code of the two calls is a finite table of labels.

## Nobody waits for a token that is lost

An `up` on `next` or on a condition variable must find a process that has gone down on it. The
counters are read before, so `MonitorInv` says that they count: `next_count` the signallers and
`count` the waiters, from the increment to the decrement. Then a counter above zero names a process
that is suspended or blocked (`MonitorInv.exists_suspended`, `MonitorInv.exists_blocked`).

## Hand-off

`Signalling` follows one `cond_signal` with waiters through all steps of all processes. Until
another process is active the signal goes on, and the next one that is active is one of its waiters
(`Signalling.run`). Whoever enters from `mutex` finds no suspended signaller
(`MonitorInv.mutex_last`). `monitor_correct` is the sum of the three parts, for any client.
-/

set_option autoImplicit false

namespace Ucore.Proofs.Sync

open Ucore.Lib
open Ucore.Sync

variable {P C K D : Type} [DecidableEq C]

/-! ### The instructions at each label -/

/-- The labels of a `down`. -/
inductive DownAt (client : Client P C K D) (p : P) :
    MonitorLabel C K → MonitorSem C → MonitorLabel C K → Prop
  | enter (k k' : K) (hcall : client.call p k = .enter k') :
      DownAt client p (.client k) .mutex (.client k')
  | signal (cv : C) (k : K) : DownAt client p (.signalDown cv k) .next (.signalDec cv k)
  | wait (cv : C) (k : K) : DownAt client p (.waitDown cv k) (.cond cv) (.waitDec cv k)

/-- The labels of an `up`. -/
inductive UpAt : MonitorLabel C K → MonitorSem C → MonitorLabel C K → Prop
  | signal (cv : C) (k : K) : UpAt (.signalUp cv k) (.cond cv) (.signalDown cv k)
  | waitNext (cv : C) (k : K) : UpAt (.waitUpNext cv k) .next (.waitDown cv k)
  | waitMutex (cv : C) (k : K) : UpAt (.waitUpMutex cv k) .mutex (.waitDown cv k)
  | leaveNext (k : K) : UpAt (.leaveUpNext k) .next (.client k)
  | leaveMutex (k : K) : UpAt (.leaveUpMutex k) .mutex (.client k)

/-- What the other instructions do, from memory to memory. -/
inductive ExecAt (client : Client P C K D) (p : P) (m : MonitorMem C D) :
    MonitorLabel C K → MonitorLabel C K → MonitorMem C D → Prop
  | leaveNext (k k' : K) (hcall : client.call p k = .leave k') (hnext : 0 < m.next_count) :
      ExecAt client p m (.client k) (.leaveUpNext k') m
  | leaveMutex (k k' : K) (hcall : client.call p k = .leave k') (hnext : m.next_count ≤ 0) :
      ExecAt client p m (.client k) (.leaveUpMutex k') m
  | signal (k k' : K) (cv : C) (hcall : client.call p k = .signal cv k')
      (hcount : 0 < m.count cv) : ExecAt client p m (.client k) (.signalInc cv k') m
  | signalNone (k k' : K) (cv : C) (hcall : client.call p k = .signal cv k')
      (hcount : m.count cv ≤ 0) : ExecAt client p m (.client k) (.client k') m
  | wait (k k' : K) (cv : C) (hcall : client.call p k = .wait cv k') :
      ExecAt client p m (.client k) (.waitTest cv k')
        { m with count := Function.update m.count cv (m.count cv + 1) }
  | data (k : K) (f : D → K × D) (hcall : client.call p k = .exec f) :
      ExecAt client p m (.client k) (.client (f m.data).1) { m with data := (f m.data).2 }
  | signalInc (cv : C) (k : K) :
      ExecAt client p m (.signalInc cv k) (.signalUp cv k)
        { m with next_count := m.next_count + 1 }
  | signalDec (cv : C) (k : K) :
      ExecAt client p m (.signalDec cv k) (.client k) { m with next_count := m.next_count - 1 }
  | waitNext (cv : C) (k : K) (hnext : 0 < m.next_count) :
      ExecAt client p m (.waitTest cv k) (.waitUpNext cv k) m
  | waitMutex (cv : C) (k : K) (hnext : m.next_count ≤ 0) :
      ExecAt client p m (.waitTest cv k) (.waitUpMutex cv k) m
  | waitDec (cv : C) (k : K) :
      ExecAt client p m (.waitDec cv k) (.client k)
        { m with count := Function.update m.count cv (m.count cv - 1) }

variable {client : Client P C K D} {p : P}

/-- The places from which a process takes a semaphore down. -/
theorem down_cases {l l' : MonitorLabel C K} {x : MonitorSem C}
    (h : (monitor client).instr p l = .down x l') : DownAt client p l x l' := by
  cases l with
  | client k =>
      change callInstr (client.call p k) = _ at h
      cases hcall : client.call p k with
      | enter k' =>
          rw [hcall] at h
          cases h
          exact .enter k k' hcall
      | _ =>
          rw [hcall] at h
          cases h
  | signalDown cv k =>
      cases h
      exact .signal cv k
  | waitDown cv k =>
      cases h
      exact .wait cv k
  | _ => cases h

/-- The places from which a process gives a unit of a semaphore. -/
theorem up_cases {l l' : MonitorLabel C K} {x : MonitorSem C}
    (h : (monitor client).instr p l = .up x l') : UpAt l x l' := by
  cases l with
  | client k =>
      change callInstr (client.call p k) = _ at h
      cases hcall : client.call p k with
      | _ =>
          rw [hcall] at h
          cases h
  | signalUp cv k =>
      cases h
      exact .signal cv k
  | waitUpNext cv k =>
      cases h
      exact .waitNext cv k
  | waitUpMutex cv k =>
      cases h
      exact .waitMutex cv k
  | leaveUpNext k =>
      cases h
      exact .leaveNext k
  | leaveUpMutex k =>
      cases h
      exact .leaveMutex k
  | _ => cases h

/-- The places at which a process changes the memory, and what it does. -/
theorem exec_cases {l : MonitorLabel C K}
    {f : MonitorMem C D → MonitorLabel C K × MonitorMem C D}
    (h : (monitor client).instr p l = .exec f) (m : MonitorMem C D) :
    ExecAt client p m l (f m).1 (f m).2 := by
  cases l with
  | client k =>
      change callInstr (client.call p k) = _ at h
      cases hcall : client.call p k with
      | leave k' =>
          rw [hcall] at h
          cases h
          by_cases hnext : m.next_count > 0
          · simpa [hnext] using ExecAt.leaveNext k k' hcall hnext
          · simpa [hnext] using ExecAt.leaveMutex k k' hcall (not_lt.mp hnext)
      | signal cv k' =>
          rw [hcall] at h
          cases h
          by_cases hcount : m.count cv > 0
          · simpa [hcount] using ExecAt.signal k k' cv hcall hcount
          · simpa [hcount] using ExecAt.signalNone k k' cv hcall (not_lt.mp hcount)
      | wait cv k' =>
          rw [hcall] at h
          cases h
          exact .wait k k' cv hcall
      | exec g =>
          rw [hcall] at h
          cases h
          exact .data k g hcall
      | _ =>
          rw [hcall] at h
          cases h
  | signalInc cv k =>
      cases h
      exact .signalInc cv k
  | signalDec cv k =>
      cases h
      exact .signalDec cv k
  | waitTest cv k =>
      cases h
      by_cases hnext : m.next_count > 0
      · simpa [hnext] using ExecAt.waitNext cv k hnext
      · simpa [hnext] using ExecAt.waitMutex cv k (not_lt.mp hnext)
  | waitDec cv k =>
      cases h
      exact .waitDec cv k
  | _ => cases h

/-- The client chooses at its own places only. -/
theorem choose_cases {l : MonitorLabel C K} {R : MonitorLabel C K → Prop}
    (h : (monitor client).instr p l = .choose R) :
    ∃ k Q, l = .client k ∧ client.call p k = .choose Q ∧
      ∀ l', R l' → ∃ k', Q k' ∧ l' = .client k' := by
  cases l with
  | client k =>
      change callInstr (client.call p k) = _ at h
      cases hcall : client.call p k with
      | choose Q =>
          rw [hcall] at h
          cases h
          exact ⟨k, Q, rfl, hcall, fun l' hl' => hl'⟩
      | _ =>
          rw [hcall] at h
          cases h
  | _ => cases h

/-! ### The token -/

/-- The process is between a granted down and its next up. -/
def holds (client : Client P C K D) (p : P) : MonitorLabel C K → Bool
  | .client k => client.inside p k
  | .signalDown _ _ | .waitDown _ _ => false
  | _ => true

/-- A process inside a call goes on at a label of the client that fits the call. -/
def ok (client : Client P C K D) (p : P) : MonitorLabel C K → Prop
  | .client _ => True
  | .leaveUpNext k | .leaveUpMutex k => client.inside p k = false
  | .signalInc _ k | .signalUp _ k | .signalDown _ k | .signalDec _ k | .waitTest _ k
  | .waitUpNext _ k | .waitUpMutex _ k | .waitDown _ k | .waitDec _ k => client.inside p k = true

/-- Whoever holds the token has it from the `down` that took it to the `up` that hands it on. -/
theorem monitor_bracketed (client : Client P C K D) :
    Bracketed (monitor client) (ok client) (holds client) where
  down p l x l' hok h := by
    refine ⟨?_, (if_pos rfl).mpr ?_⟩
    · cases down_cases h with
      | enter k k' hcall => trivial
      | signal cv k => exact hok
      | wait cv k => exact hok
    · cases down_cases h with
      | enter k k' hcall => exact client.enter p k k' hcall
      | signal cv k => exact ⟨rfl, rfl⟩
      | wait cv k => exact ⟨rfl, rfl⟩
  up p l x l' hok h := by
    cases up_cases h with
    | leaveNext k => exact ⟨trivial, rfl, hok⟩
    | leaveMutex k => exact ⟨trivial, rfl, hok⟩
    | _ => exact ⟨hok, rfl, rfl⟩
  exec p l f hok h m := by
    have hexec := exec_cases h m
    generalize (f m).1 = l' at hexec ⊢
    generalize (f m).2 = m' at hexec
    cases hexec with
    | leaveNext k k' hcall hnext => exact ⟨(client.leave p k k' hcall).2, (client.leave p k k' hcall).1.symm⟩
    | leaveMutex k k' hcall hnext => exact ⟨(client.leave p k k' hcall).2, (client.leave p k k' hcall).1.symm⟩
    | signal k k' cv hcall hcount => exact ⟨(client.signal p k cv k' hcall).2, (client.signal p k cv k' hcall).1.symm⟩
    | signalNone k k' cv hcall hcount =>
        have hin := client.signal p k cv k' hcall
        exact ⟨trivial, hin.2.trans hin.1.symm⟩
    | wait k k' cv hcall => exact ⟨(client.wait p k cv k' hcall).2, (client.wait p k cv k' hcall).1.symm⟩
    | data k g hcall => exact ⟨trivial, client.exec p k g hcall m.data⟩
    | signalInc cv k => exact ⟨hok, rfl⟩
    | signalDec cv k => exact ⟨trivial, hok⟩
    | waitNext cv k hnext => exact ⟨hok, rfl⟩
    | waitMutex cv k hnext => exact ⟨hok, rfl⟩
    | waitDec cv k => exact ⟨trivial, hok⟩
  choose p l R hok h l' hl' := by
    obtain ⟨k, Q, rfl, hcall, hR⟩ := choose_cases h
    obtain ⟨k', hk', rfl⟩ := hR l' hl'
    exact ⟨trivial, client.choose p k Q hcall k' hk'⟩

/-! ### The counters -/

/-- `next_count` counts the signallers between their increment and their decrement. -/
theorem next_count_counts (client : Client P C K D) :
    Counts (monitor client) (fun l => if l.signals then 1 else 0) MonitorMem.next_count where
  down p l x l' h := by
    cases down_cases h <;> rfl
  up p l x l' h := by
    cases up_cases h <;> rfl
  exec p l f h m := by
    have hexec := exec_cases h m
    generalize (f m).1 = l' at hexec ⊢
    generalize (f m).2 = m' at hexec ⊢
    cases hexec <;> simp [MonitorLabel.signals]
  choose p l R h l' hl' := by
    obtain ⟨k, Q, rfl, hcall, hR⟩ := choose_cases h
    obtain ⟨k', hk', rfl⟩ := hR l' hl'
    rfl

/-- `count` counts the waiters between their increment and their decrement. -/
theorem count_counts (client : Client P C K D) (cv : C) :
    Counts (monitor client) (fun l => if l.waits cv then 1 else 0) (fun m => m.count cv) where
  down p l x l' h := by
    cases down_cases h <;> rfl
  up p l x l' h := by
    cases up_cases h <;> rfl
  exec p l f h m := by
    have hexec := exec_cases h m
    generalize (f m).1 = l' at hexec ⊢
    generalize (f m).2 = m' at hexec ⊢
    have hupdate : ∀ (cv' : C) (v : Int), Function.update m.count cv' v cv =
        if cv' = cv then v else m.count cv := by
      intro cv' v
      by_cases hcv : cv' = cv
      · rw [if_pos hcv, hcv, Function.update_self]
      · rw [if_neg hcv, Function.update_of_ne (Ne.symm hcv)]
    cases hexec with
    | wait k k' cv' hcall =>
        simp only [MonitorLabel.waits, hupdate]
        by_cases hcv : cv' = cv
        · subst hcv
          simp
        · simp [hcv]
    | waitDec cv' k =>
        simp only [MonitorLabel.waits, hupdate]
        by_cases hcv : cv' = cv
        · subst hcv
          simp
        · simp [hcv]
    | _ => simp [MonitorLabel.waits]
  choose p l R h l' hl' := by
    obtain ⟨k, Q, rfl, hcall, hR⟩ := choose_cases h
    obtain ⟨k', hk', rfl⟩ := hR l' hl'
    rfl

omit [DecidableEq C] in
/-- A process that counts in `next_count` without the token waits for `next`. -/
theorem suspended_of_signals (client : Client P C K D) (p : P) {l : MonitorLabel C K}
    (h : l.signals = true) (hout : holds client p l = false) : l.suspended = true := by
  cases l <;> simp_all [MonitorLabel.signals, MonitorLabel.suspended, holds]

/-- A process that counts in a condition variable without the token waits for that variable. -/
theorem blocked_of_waits (client : Client P C K D) (p : P) {l : MonitorLabel C K} {cv : C}
    (h : l.waits cv = true) (hout : holds client p l = false) : l.blocked cv = true := by
  cases l <;> simp_all [MonitorLabel.waits, MonitorLabel.blocked, holds]

omit [DecidableEq C] in
/-- A suspended signaller counts in `next_count`. -/
theorem signals_of_suspended {l : MonitorLabel C K} (h : l.suspended = true) :
    l.signals = true := by
  cases l <;> simp_all [MonitorLabel.signals, MonitorLabel.suspended]

/-- A blocked waiter counts in its condition variable. -/
theorem waits_of_blocked {l : MonitorLabel C K} {cv : C} (h : l.blocked cv = true) :
    l.waits cv = true := by
  cases l <;> simp_all [MonitorLabel.waits, MonitorLabel.blocked]

/-! ### Who takes the token -/

/-- The semaphore to which a process is bound to hand the token. -/
def serves : MonitorLabel C K → Option (MonitorSem C)
  | .signalInc cv _ | .signalUp cv _ => some (.cond cv)
  | .waitUpNext _ _ | .leaveUpNext _ => some .next
  | .waitUpMutex _ _ | .leaveUpMutex _ => some .mutex
  | _ => none

/-- The token may be handed to a semaphore: a suspended signaller takes it from `next`, a
blocked waiter from its condition variable, and from `mutex` it is taken only when no
signaller is suspended. -/
def Taker (x : MonitorSem C) (pc : P → MonitorLabel C K) : Prop :=
  match x with
  | .mutex => ∀ q, (pc q).suspended = false
  | .next => ∃ q, (pc q).suspended = true
  | .cond cv => ∃ q, (pc q).blocked cv = true

/-- To whom the token may go depends on who is suspended and who is blocked. -/
theorem Taker.congr {x : MonitorSem C} {pc pc' : P → MonitorLabel C K} (h : Taker x pc)
    (hs : ∀ q, (pc' q).suspended = (pc q).suspended)
    (hb : ∀ cv q, (pc' q).blocked cv = (pc q).blocked cv) : Taker x pc' := by
  cases x with
  | mutex =>
      intro q
      rw [hs]
      exact h q
  | next =>
      obtain ⟨q, hq⟩ := h
      exact ⟨q, (hs q).trans hq⟩
  | cond cv =>
      obtain ⟨q, hq⟩ := h
      exact ⟨q, (hb cv q).trans hq⟩

/-- The state of a monitor at any time. -/
structure MonitorInv [Fintype P] [Fintype C] (client : Client P C K D)
    (s : Conf P (MonitorSem C) (MonitorLabel C K) (MonitorMem C D)) : Prop where
  token : TokenInv (monitor client) (ok client) (holds client) s
  next_count : s.mem.next_count = ∑ q, if (s.pc q).signals then 1 else 0
  count : ∀ cv, s.mem.count cv = ∑ q, if (s.pc q).waits cv then 1 else 0
  bound : ∀ q x, serves (s.pc q) = some x → Taker x s.pc
  handed : ∀ x, 0 < s.val x → Taker x s.pc
  signalled : ∀ cv, 0 < s.val (.cond cv) → ∃ q, (s.pc q).suspended = true

omit [DecidableEq C] in
/-- Behind a down a process serves nobody yet. -/
theorem serves_down {l l' : MonitorLabel C K} {x : MonitorSem C} (h : DownAt client p l x l') :
    serves l' = none := by
  cases h <;> rfl

omit [DecidableEq C] in
/-- An `up` hands the token to the semaphore that the process is bound to. -/
theorem serves_up {l l' : MonitorLabel C K} {x : MonitorSem C} (h : UpAt l x l') :
    serves l = some x := by
  cases h <;> rfl

omit [DecidableEq C] in
/-- A process that is bound to hand the token has it. -/
theorem holds_of_serves {l : MonitorLabel C K} {x : MonitorSem C} (h : serves l = some x) :
    holds client p l = true := by
  cases l <;> simp_all [serves, holds]

/-- An instruction on the memory moves neither a suspended signaller nor a blocked waiter. -/
theorem exec_still {l l' : MonitorLabel C K} {m m' : MonitorMem C D}
    (h : ExecAt client p m l l' m') :
    l'.suspended = l.suspended ∧ ∀ cv, l'.blocked cv = l.blocked cv := by
  cases h <;> exact ⟨rfl, fun _ => rfl⟩

section

variable [Fintype P] [Fintype C] [DecidableEq P]
  {s s' : Conf P (MonitorSem C) (MonitorLabel C K) (MonitorMem C D)}

/-- The other processes that count in `next_count` are suspended while `p` is active. -/
theorem MonitorInv.exists_suspended (hi : MonitorInv client s) (hp : s.active p = true)
    (hself : (s.pc p).signals = false) :
    0 < s.mem.next_count ↔ ∃ q, (s.pc q).suspended = true := by
  rw [hi.next_count, sum_pos_iff]
  constructor
  · rintro ⟨q, hq⟩
    refine ⟨q, suspended_of_signals client q hq ?_⟩
    rw [← hi.token.active, Bool.eq_false_iff]
    intro hact
    rw [hi.token.unique hact hp, hself] at hq
    cases hq
  · rintro ⟨q, hq⟩
    exact ⟨q, signals_of_suspended hq⟩

/-- The other processes that count in `count` are blocked while `p` is active. -/
theorem MonitorInv.exists_blocked (hi : MonitorInv client s) (hp : s.active p = true) {cv : C}
    (hself : (s.pc p).waits cv = false) :
    0 < s.mem.count cv ↔ ∃ q, (s.pc q).blocked cv = true := by
  rw [hi.count, sum_pos_iff]
  constructor
  · rintro ⟨q, hq⟩
    refine ⟨q, blocked_of_waits client q hq ?_⟩
    rw [← hi.token.active, Bool.eq_false_iff]
    intro hact
    rw [hi.token.unique hact hp, hself] at hq
    cases hq
  · rintro ⟨q, hq⟩
    exact ⟨q, waits_of_blocked hq⟩

/-- The token went to the process `r`, behind its down. -/
theorem taken (htoken : TokenInv (monitor client) (ok client) (holds client) s)
    {r : P} (hr : s.active r = true) (hnone : serves (s.pc r) = none) :
    (∀ q x, serves (s.pc q) = some x → Taker x s.pc) ∧ (∀ x, 0 < s.val x → Taker x s.pc) ∧
      ∀ cv, 0 < s.val (.cond cv) → ∃ q, (s.pc q).suspended = true := by
  have hzero : ∀ x, ¬ 0 < s.val x := by
    intro x hx
    have hzero := htoken.val_zero hr (x := x) rfl
    omega
  refine ⟨?_, fun x hx => absurd hx (hzero x), fun cv hcv => absurd hcv (hzero _)⟩
  · intro q x hq
    have hact : s.active q = true := by
      rw [htoken.active]
      exact holds_of_serves hq
    rw [htoken.unique hact hr, hnone] at hq
    cases hq

/-- The process that is about to serve `x` has somebody to serve. -/
theorem MonitorInv.exec_bound (hi : MonitorInv client s) {l' : MonitorLabel C K}
    {m' : MonitorMem C D} (hp : s.active p = true)
    (h : ExecAt client p s.mem (s.pc p) l' m') {x : MonitorSem C} (hx : serves l' = some x) :
    Taker x s.pc := by
  generalize hl : s.pc p = l at h
  have hnone : ¬ 0 < s.mem.next_count → (s.pc p).signals = false →
      ∀ q, (s.pc q).suspended = false := by
    intro hle hself q
    rw [Bool.eq_false_iff]
    intro hq
    exact hle ((hi.exists_suspended hp hself).mpr ⟨q, hq⟩)
  cases h with
  | leaveNext k k' hcall hnext =>
      cases hx
      exact (hi.exists_suspended hp (by rw [hl]; rfl)).mp hnext
  | leaveMutex k k' hcall hnext =>
      cases hx
      exact hnone (not_lt.mpr hnext) (by rw [hl]; rfl)
  | signal k k' cv hcall hcount =>
      cases hx
      exact (hi.exists_blocked hp (by rw [hl]; rfl)).mp hcount
  | signalInc cv k =>
      cases hx
      exact hi.bound p (.cond cv) (by rw [hl]; rfl)
  | waitNext cv k hnext =>
      cases hx
      exact (hi.exists_suspended hp (by rw [hl]; rfl)).mp hnext
  | waitMutex cv k hnext =>
      cases hx
      exact hnone (not_lt.mpr hnext) (by rw [hl]; rfl)
  | _ => cases hx

omit [Fintype P] [Fintype C] in
/-- A process that goes up leaves the takers in place. -/
theorem Taker.up {l l' : MonitorLabel C K} {x : MonitorSem C} {pc : P → MonitorLabel C K}
    (h : Taker x pc) (hp : pc p = l) (hup : UpAt l x l') :
    Taker x (Function.update pc p l') := by
  have hother : ∀ q, q ≠ p → Function.update pc p l' q = pc q :=
    fun q hq => Function.update_of_ne hq _ _
  cases hup with
  | waitMutex cv k =>
      intro q
      by_cases hq : q = p
      · subst hq
        rw [Function.update_self]
        rfl
      · rw [hother q hq]
        exact h q
  | leaveMutex k =>
      intro q
      by_cases hq : q = p
      · subst hq
        rw [Function.update_self]
        rfl
      · rw [hother q hq]
        exact h q
  | _ =>
      obtain ⟨q, hq⟩ := h
      refine ⟨q, ?_⟩
      rw [hother q]
      · exact hq
      · rintro rfl
        rw [hp] at hq
        cases hq

/-- Every step of every process keeps the invariant. -/
theorem MonitorInv.step (hi : MonitorInv client s) (h : Step (monitor client) p s s') :
    MonitorInv client s' := by
  have htoken := hi.token.step (monitor_bracketed client) h
  have heff := h.effect hi.token.queued
  have hnext := (next_count_counts client).step heff hi.next_count
  have hcount := fun cv => (count_counts client cv).step heff (hi.count cv)
  -- The token and the counters have their own step lemmas. What is left is that whoever is about to
  -- give the token away, or has left it on a semaphore, finds somebody to take it (`Taker`).
  suffices hready : (∀ q x, serves (s'.pc q) = some x → Taker x s'.pc) ∧
      (∀ x, 0 < s'.val x → Taker x s'.pc) ∧
      ∀ cv, 0 < s'.val (.cond cv) → ∃ q, (s'.pc q).suspended = true from
    ⟨htoken, hnext, hcount, hready.1, hready.2.1, hready.2.2⟩
  cases heff with
  -- A process gets in. Then no unit is left, and it serves nobody yet.
  | grant x l hinstr hval pc val asleep active mem =>
      refine taken htoken (r := p) ?_ ?_
      · rw [active, Function.update_self]
        exact Bool.or_true _
      · rw [pc, Function.update_self]
        exact serves_down (down_cases hinstr)
  | block x l hinstr hval pc val asleep active mem =>
      rw [pc, val]
      exact ⟨hi.bound, hi.handed, hi.signalled⟩
  -- Nobody waits on `x`, and the token is the unit on it. The taker that the up was bound to is
  -- still there, since only the label of `p` has changed.
  | release x l hinstr hnone pc val asleep active mem =>
      have hup := up_cases hinstr
      have hone : s'.val x = 1 := by
        have hact : s.active p = true := by
          rw [hi.token.active]
          exact holds_of_serves (serves_up hup)
        rw [val, Function.update_self, hi.token.val_zero hact rfl]
        rfl
      have htaker : Taker x s'.pc := by
        rw [pc]
        exact (hi.bound p x (serves_up hup)).up rfl hup
      refine ⟨?_, ?_, ?_⟩
      · intro q y hq
        have hact : s'.active q = true := by
          rw [htoken.active]
          exact holds_of_serves hq
        have hzero := htoken.val_zero hact (x := x) rfl
        omega
      · intro y hy
        rw [htoken.val_unique (x := y) (y := x) rfl rfl hy (by omega)]
        exact htaker
      · intro cv hcv
        have hx : x = .cond cv := htoken.val_unique rfl rfl (by omega) hcv
        subst hx
        refine ⟨p, ?_⟩
        rw [pc, Function.update_self]
        generalize s.pc p = l₀ at hup
        cases hup
        rfl
  | handOff x l q l' hinstr hne hasleep hq hval pc val asleep active mem =>
      refine taken htoken (r := q) ?_ ?_
      · rw [active, Function.update_self]
        exact Bool.or_true _
      · rw [pc, Function.update_self]
        exact serves_down (down_cases hq)
  -- An instruction on the memory. A process that becomes bound to an up has read the counter of
  -- this semaphore, and the counter is the number of the processes there (`MonitorInv.exec_bound`).
  | exec f hinstr pc val asleep active mem =>
      have hexec := exec_cases hinstr s.mem
      have hstill : ∀ x, Taker x s.pc → Taker x s'.pc := by
        intro x hx
        refine hx.congr (fun q => ?_) (fun cv q => ?_)
        · rw [pc]
          by_cases hq : q = p
          · subst hq
            rw [Function.update_self]
            exact (exec_still hexec).1
          · rw [Function.update_of_ne hq]
        · rw [pc]
          by_cases hq : q = p
          · subst hq
            rw [Function.update_self]
            exact (exec_still hexec).2 cv
          · rw [Function.update_of_ne hq]
      refine ⟨?_, ?_, ?_⟩
      · intro q x hx
        apply hstill
        by_cases hq : q = p
        · subst hq
          have hact : s.active q = true := by
            rw [← active, htoken.active]
            exact holds_of_serves hx
          rw [pc, Function.update_self] at hx
          exact hi.exec_bound hact hexec hx
        · rw [pc, Function.update_of_ne hq] at hx
          exact hi.bound q x hx
      · intro x hx
        rw [val] at hx
        exact hstill x (hi.handed x hx)
      · intro cv hcv
        rw [val] at hcv
        exact hstill .next (hi.signalled cv hcv)
  -- A free choice of the client. It neither enters nor leaves the monitor.
  | choose R l hinstr hl pc val asleep active mem =>
      obtain ⟨k, Q, hk, hcall, hR⟩ := choose_cases hinstr
      obtain ⟨k', hk', rfl⟩ := hR l hl
      have hstill : ∀ x, Taker x s.pc → Taker x s'.pc := by
        intro x hx
        refine hx.congr (fun q => ?_) (fun cv q => ?_)
        · rw [pc]
          by_cases hq : q = p
          · subst hq
            rw [Function.update_self, hk]
            rfl
          · rw [Function.update_of_ne hq]
        · rw [pc]
          by_cases hq : q = p
          · subst hq
            rw [Function.update_self, hk]
            rfl
          · rw [Function.update_of_ne hq]
      refine ⟨?_, ?_, ?_⟩
      · intro q x hx
        apply hstill
        by_cases hq : q = p
        · subst hq
          rw [pc, Function.update_self] at hx
          cases hx
        · rw [pc, Function.update_of_ne hq] at hx
          exact hi.bound q x hx
      · intro x hx
        rw [val] at hx
        exact hstill x (hi.handed x hx)
      · intro cv hcv
        rw [val] at hcv
        exact hstill .next (hi.signalled cv hcv)

/-! ### Runs -/

omit [DecidableEq C] [DecidableEq P] [Fintype P] in
/-- A sum over the semaphores of a monitor. -/
theorem sum_monitorSem (f : MonitorSem C → Int) :
    ∑ x, f x = f .mutex + f .next + ∑ cv, f (.cond cv) := by
  let e : Option (Option C) ≃ MonitorSem C :=
    { toFun := fun o => o.elim .mutex (fun o => o.elim .next .cond)
      invFun := fun x => x.casesOn none (some none) fun cv => some (some cv)
      left_inv := fun o => by rcases o with _ | _ | cv <;> rfl
      right_inv := fun x => by cases x <;> rfl }
  rw [← Equiv.sum_comp e, Fintype.sum_option, Fintype.sum_option, ← add_assoc]
  rfl

omit [DecidableEq P] in
/-- The invariant holds behind `monitor_init`. -/
theorem monitorInv_init (start : P → K) (data : D)
    (hstart : ∀ p, client.inside p (start p) = false) :
    MonitorInv client (monitor_init (C := C) start data) := by
  have hval : ∀ x, (monitor_init (P := P) (C := C) start data).val x =
      if x = .mutex then 1 else 0 := by
    intro x
    cases x <;> rfl
  have hqueue : ∀ x, ((monitor_init (P := P) (C := C) start data).sem x).queue = [] := by
    intro x
    cases x <;> rfl
  refine ⟨⟨⟨?_, ?_, ?_, ?_⟩, ?_, ?_, ?_⟩, ?_, ?_, ?_, ?_, ?_⟩
  · intro x q
    rw [hqueue]
    simp [monitor_init]
  · intro x
    rw [hqueue]
    exact List.nodup_nil
  · intro x
    rw [hval]
    split <;> decide
  · intro x _
    exact hqueue x
  · intro q
    trivial
  · intro q
    exact (hstart q).symm
  · unfold tokens
    have hsum : ∑ x, (if (monitor client).token x then
        (monitor_init (P := P) (C := C) start data).val x else 0) = 1 := by
      rw [sum_monitorSem]
      simp [monitor, hval]
    rw [hsum]
    simp [monitor_init]
  · simp [monitor_init, MonitorLabel.signals]
  · intro cv
    simp [monitor_init, MonitorLabel.waits]
  · intro q x hx
    cases hx
  · intro x hx
    cases x with
    | mutex =>
        intro q
        rfl
    | next =>
        rw [hval] at hx
        cases hx
    | cond cv =>
        rw [hval] at hx
        cases hx
  · intro cv hcv
    rw [hval] at hcv
    cases hcv

/-- The invariant holds in every state of a run. -/
theorem monitorInv_of_run (hs : MonitorInv client s) (h : Run (monitor client) s s') :
    MonitorInv client s' :=
  Run.invariant (monitor client) (fun _ _ _ hi hst => hi.step hst) hs h

omit [DecidableEq P] in
/-- The sum of the semaphores and the active processes. -/
theorem MonitorInv.sum (hi : MonitorInv client s) :
    s.val .mutex + s.val .next + (∑ cv, s.val (.cond cv)) +
      ((Finset.univ.filter fun p => s.active p = true).card : Int) = 1 := by
  have hone := hi.token.one
  unfold tokens at hone
  rw [← hone, sum_monitorSem, Finset.card_filter]
  push_cast
  rfl

/-! ### Signals -/

omit [Fintype P] [Fintype C] [DecidableEq P] in
/-- A process without the token works on the data only. -/
theorem exec_outside {l l' : MonitorLabel C K} {m m' : MonitorMem C D}
    (h : ExecAt client p m l l' m') (hout : holds client p l = false) :
    ∃ k k', l = .client k ∧ l' = .client k' := by
  cases h with
  | leaveNext k k' hcall hnext =>
      have hin := (client.leave p k k' hcall).1
      rw [show holds client p (.client k) = client.inside p k from rfl, hin] at hout
      cases hout
  | leaveMutex k k' hcall hnext =>
      have hin := (client.leave p k k' hcall).1
      rw [show holds client p (.client k) = client.inside p k from rfl, hin] at hout
      cases hout
  | signal k k' cv hcall hcount =>
      have hin := (client.signal p k cv k' hcall).1
      rw [show holds client p (.client k) = client.inside p k from rfl, hin] at hout
      cases hout
  | signalNone k k' cv hcall hcount => exact ⟨k, k', rfl, rfl⟩
  | wait k k' cv hcall =>
      have hin := (client.wait p k cv k' hcall).1
      rw [show holds client p (.client k) = client.inside p k from rfl, hin] at hout
      cases hout
  | data k f hcall => exact ⟨k, _, rfl, rfl⟩
  | _ => cases hout

/-- A process that is not active takes a unit, or it leaves the monitor as it is. -/
theorem MonitorInv.step_outside (hi : MonitorInv client s) (h : Step (monitor client) p s s')
    (hp : s.active p = false) :
    (∃ x l, (monitor client).instr p (s.pc p) = .down x l ∧ 0 < s.val x ∧
      s'.pc = Function.update s.pc p l ∧ s'.active = Function.update s.active p true) ∨
    (s'.val = s.val ∧ s'.active = s.active ∧ (s'.pc = s.pc ∨
      ∃ k k', s.pc p = .client k ∧ s'.pc = Function.update s.pc p (.client k'))) := by
  have hout : holds client p (s.pc p) = false := by
    rw [← hi.token.active]
    exact hp
  cases h.effect hi.token.queued with
  | grant x l hinstr hpos pc val asleep active mem =>
      refine .inl ⟨x, l, hinstr, hpos, pc, ?_⟩
      rw [active]
      exact congrArg _ (Bool.or_true _)
  | block x l hinstr hpos pc val asleep active mem => exact .inr ⟨val, active, .inl pc⟩
  | release x l hinstr hnone pc val asleep active mem =>
      rw [holds_of_serves (serves_up (up_cases hinstr))] at hout
      cases hout
  | handOff x l q l' hinstr hne hasleep hq hpos pc val asleep active mem =>
      rw [holds_of_serves (serves_up (up_cases hinstr))] at hout
      cases hout
  | exec f hinstr pc val asleep active mem =>
      obtain ⟨k, k', hk, hk'⟩ := exec_outside (exec_cases hinstr s.mem) hout
      exact .inr ⟨val, active, .inr ⟨k, k', hk, by rw [pc, hk']⟩⟩
  | choose R l hinstr hl pc val asleep active mem =>
      obtain ⟨k, Q, hk, hcall, hR⟩ := choose_cases hinstr
      obtain ⟨k', hk', rfl⟩ := hR l hl
      exact .inr ⟨val, active, .inr ⟨k, k', hk, pc⟩⟩

/-- The process `p` is in a `cond_signal` on `cv`, whose waiters are `W`: on its way to
the up, or behind it while the unit is in the semaphore of `cv`. -/
structure Signalling (client : Client P C K D) (p : P) (cv : C) (W : P → Prop)
    (s : Conf P (MonitorSem C) (MonitorLabel C K) (MonitorMem C D)) : Prop where
  waiters : ∀ q, (s.pc q).waits cv = true ↔ W q
  place : (s.active p = true ∧
      ((∃ k k', s.pc p = .client k ∧ client.call p k = .signal cv k') ∨
        serves (s.pc p) = some (.cond cv))) ∨
    ((s.pc p).suspended = true ∧ 0 < s.val (.cond cv))

omit [Fintype P] [Fintype C] in
/-- A process that goes on between labels that do not count changes no waiters. -/
theorem Signalling.waiters_update {W : P → Prop} {cv : C} {l : MonitorLabel C K}
    {r : P} (hw : ∀ q, (s.pc q).waits cv = true ↔ W q)
    (hl : l.waits cv = (s.pc r).waits cv) :
    ∀ q, (Function.update s.pc r l q).waits cv = true ↔ W q := by
  intro q
  by_cases hq : q = r
  · subst hq
    rw [Function.update_self, hl]
    exact hw q
  · rw [Function.update_of_ne hq]
    exact hw q

omit [DecidableEq C] [Fintype P] [Fintype C] [DecidableEq P] in
/-- In `cond_signal`, before the up, a process does not go down. -/
theorem not_down {cv : C} {l l' : MonitorLabel C K} {x : MonitorSem C}
    (hplace : (∃ k k', l = .client k ∧ client.call p k = .signal cv k') ∨
      serves l = some (.cond cv)) : ¬ DownAt client p l x l' := by
  intro h
  rcases hplace with ⟨k, k', rfl, hcall⟩ | hserves
  · cases h with
    | enter _ _ hcall' =>
        rw [hcall] at hcall'
        cases hcall'
  · cases h <;> cases hserves

omit [Fintype P] [Fintype C] [DecidableEq P] in
/-- In `cond_signal`, with waiters, a process comes to the up. -/
theorem signal_exec {cv : C} {l l' : MonitorLabel C K} {m m' : MonitorMem C D}
    (h : ExecAt client p m l l' m')
    (hplace : (∃ k k', l = .client k ∧ client.call p k = .signal cv k') ∨
      serves l = some (.cond cv)) (hcount : 0 < m.count cv) :
    l'.waits cv = l.waits cv ∧ serves l' = some (.cond cv) := by
  rcases hplace with ⟨k₁, k₂, rfl, hcall⟩ | hserves
  · cases h with
    | signalNone _ _ cv' hcall' hle =>
        rw [hcall] at hcall'
        cases hcall'
        omega
    | signal _ _ cv' hcall' hlt =>
        rw [hcall] at hcall'
        cases hcall'
        exact ⟨rfl, rfl⟩
    | leaveNext _ _ hcall' | leaveMutex _ _ hcall' | wait _ _ _ hcall' | data _ _ hcall' =>
        rw [hcall] at hcall'
        cases hcall'
  · cases h with
    | signalInc cv' k =>
        cases hserves
        exact ⟨rfl, rfl⟩
    | _ => cases hserves

/-- A step of the signaller, before its up. -/
theorem Signalling.own {cv : C} {W : P → Prop} (hi : MonitorInv client s)
    (hw : ∀ q, (s.pc q).waits cv = true ↔ W q) (hp : s.active p = true)
    (hplace : (∃ k k', s.pc p = .client k ∧ client.call p k = .signal cv k') ∨
      serves (s.pc p) = some (.cond cv))
    (hW : ∃ q, W q) (h : Step (monitor client) p s s') :
    (Signalling client p cv W s' ∧ ∀ q, s'.active q = true → q = p) ∨
      ∃ q, q ≠ p ∧ W q ∧ GetsIn (monitor client) (.cond cv) q s s' ∧
        (s'.pc p).suspended = true := by
  have hself : ∀ (b : Bool) q, Function.update s.active p b q = true → q = p := by
    intro b q hq
    by_contra hne
    rw [Function.update_of_ne hne] at hq
    exact hne (hi.token.unique hq hp)
  -- The signaller is at the call of `cond_signal` or at its up, and neither is a down.
  cases h.effect hi.token.queued with
  | grant x l hinstr hval pc val asleep active mem =>
      exact absurd (down_cases hinstr) (not_down hplace)
  | block x l hinstr hval pc val asleep active mem =>
      exact absurd (down_cases hinstr) (not_down hplace)
  -- The up finds nobody asleep: the process that waits is in front of its down, and the unit is on
  -- the semaphore for it.
  | release x l hinstr hnone pc val asleep active mem =>
      have hup := up_cases hinstr
      generalize hl : s.pc p = l₀ at hup hplace
      cases hup with
      | signal cv' k =>
          rcases hplace with ⟨k₁, k₂, hk, -⟩ | hserves
          · cases hk
          · cases hserves
            refine .inl ⟨⟨?_, .inr ⟨?_, ?_⟩⟩, ?_⟩
            · rw [pc]
              exact Signalling.waiters_update hw (by rw [hl]; rfl)
            · rw [pc, Function.update_self]
              rfl
            · rw [val, Function.update_self, hi.token.val_zero hp rfl]
              decide
            · rw [active]
              exact hself _
      | _ =>
          rcases hplace with ⟨k₁, k₂, hk, -⟩ | hserves
          · cases hk
          · cases hserves
  -- The up wakes a process that is asleep on the semaphore, which is one of the waiters, and it
  -- gets the monitor at once.
  | handOff x l q l' hinstr hne hasleep hq hval pc val asleep active mem =>
      have hup := up_cases hinstr
      have hinactive : s.active q = false := by
        rw [Bool.eq_false_iff]
        intro hact
        exact hne (hi.token.unique hact hp)
      generalize hl : s.pc p = l₀ at hup hplace
      cases hup with
      | signal cv' k =>
          rcases hplace with ⟨k₁, k₂, hk, -⟩ | hserves
          · cases hk
          · cases hserves
            refine .inr ⟨q, hne, ?_, ⟨⟨l', hq⟩, hinactive, ?_⟩, ?_⟩
            · rw [← hw]
              have hd := down_cases hq
              generalize s.pc q = l₁ at hd ⊢
              cases hd
              simp [MonitorLabel.waits]
            · rw [active, Function.update_self]
              exact Bool.or_true _
            · rw [pc, Function.update_of_ne (Ne.symm hne), Function.update_self]
              rfl
      | _ =>
          rcases hplace with ⟨k₁, k₂, hk, -⟩ | hserves
          · cases hk
          · cases hserves
  | exec f hinstr pc val asleep active mem =>
      have hexec := exec_cases hinstr s.mem
      have honly : ∀ q, s'.active q = true → q = p := by
        rw [active]
        exact fun q hq => hi.token.unique hq hp
      -- The counter is the number of the waiters, so the test in `cond_signal` takes the branch
      -- that signals.
      have hcount : 0 < s.mem.count cv := by
        rw [hi.count, sum_pos_iff]
        obtain ⟨q, hq⟩ := hW
        exact ⟨q, (hw q).mpr hq⟩
      obtain ⟨hwaits, hserves⟩ := signal_exec hexec hplace hcount
      refine .inl ⟨⟨?_, .inl ⟨by rw [active]; exact hp, .inr ?_⟩⟩, honly⟩
      · rw [pc]
        exact Signalling.waiters_update hw hwaits
      · rw [pc, Function.update_self]
        exact hserves
  | choose R l hinstr hl pc val asleep active mem =>
      obtain ⟨k, Q, hk, hcall, hR⟩ := choose_cases hinstr
      rw [hk] at hplace
      rcases hplace with ⟨k₁, k₂, hk', hcall'⟩ | hserves
      · cases hk'
        rw [hcall] at hcall'
        cases hcall'
      · cases hserves

/-- One step of any process while `p` is in a `cond_signal` that has waiters: the signal
goes on, or one of the waiters becomes active. -/
theorem Signalling.step {cv : C} {W : P → Prop} {r : P} (hi : MonitorInv client s)
    (hs : Signalling client p cv W s) (hW : ∃ q, W q) (h : Step (monitor client) r s s') :
    (Signalling client p cv W s' ∧ ∀ q, s'.active q = true → q = p) ∨
      ∃ q, q ≠ p ∧ W q ∧ GetsIn (monitor client) (.cond cv) q s s' ∧
        (s'.pc p).suspended = true := by
  -- A step of another process that takes no unit.
  have hother : s'.val = s.val → s'.active = s.active →
      (s'.pc = s.pc ∨ ∃ k k', s.pc r = .client k ∧
        s'.pc = Function.update s.pc r (.client k')) → r ≠ p →
      (∀ q, s.active q = true → q = p) →
      Signalling client p cv W s' ∧ ∀ q, s'.active q = true → q = p := by
    intro hval hactive hpc hne honly
    have hp : s'.pc p = s.pc p := by
      rcases hpc with hpc | ⟨k, k', hk, hpc⟩
      · rw [hpc]
      · rw [hpc, Function.update_of_ne (Ne.symm hne)]
    refine ⟨⟨?_, ?_⟩, by rw [hactive]; exact honly⟩
    · rcases hpc with hpc | ⟨k, k', hk, hpc⟩
      · rw [hpc]
        exact hs.waiters
      · rw [hpc]
        exact Signalling.waiters_update hs.waiters (by rw [hk]; rfl)
    · rw [hp, hval, hactive]
      exact hs.place
  rcases hs.place with ⟨hp, hplace⟩ | ⟨hsus, hval⟩
  · by_cases hr : r = p
    · subst hr
      exact Signalling.own hi hs.waiters hp hplace hW h
    · have hout : s.active r = false := by
        rw [Bool.eq_false_iff]
        exact fun hact => hr (hi.token.unique hact hp)
      rcases hi.step_outside h hout with ⟨x, l, hinstr, hpos, -⟩ | ⟨hval, hactive, hpc⟩
      · rw [hi.token.val_zero hp rfl] at hpos
        omega
      · exact .inl (hother hval hactive hpc hr fun q hq => hi.token.unique hq hp)
  · have hidle : ∀ q, s.active q = false := by
      intro q
      rw [Bool.eq_false_iff]
      intro hact
      rw [hi.token.val_zero hact rfl] at hval
      omega
    have hne : ∀ l x, (monitor client).instr r (s.pc r) = .down (.cond x) l → r ≠ p := by
      rintro l x hinstr rfl
      have hd := down_cases hinstr
      generalize s.pc r = l₁ at hd hsus
      cases hd
      cases hsus
    rcases hi.step_outside h (hidle r) with ⟨x, l, hinstr, hpos, hpc, hactive⟩ |
      ⟨hval', hactive, hpc⟩
    · have hx : x = .cond cv := hi.token.val_unique rfl rfl hpos hval
      subst hx
      have hrp := hne l cv hinstr
      refine .inr ⟨r, hrp, ?_, ⟨⟨l, hinstr⟩, hidle r, ?_⟩, ?_⟩
      · rw [← hs.waiters]
        have hd := down_cases hinstr
        generalize s.pc r = l₁ at hd ⊢
        cases hd
        simp [MonitorLabel.waits]
      · rw [hactive, Function.update_self]
      · rw [hpc, Function.update_of_ne (Ne.symm hrp)]
        exact hsus
    · by_cases hr : r = p
      · subst hr
        have hpc' : s'.pc = s.pc := by
          rcases hpc with hpc | ⟨k, k', hk, -⟩
          · exact hpc
          · rw [hk] at hsus
            cases hsus
        refine .inl ⟨⟨by rw [hpc']; exact hs.waiters, ?_⟩, ?_⟩
        · rw [hpc', hval', hactive]
          exact hs.place
        · intro q hq
          rw [hactive, hidle q] at hq
          cases hq
      · refine .inl (hother hval' hactive hpc hr ?_)
        intro q hq
        rw [hidle q] at hq
        cases hq

/-- The states in which no process but `p` is active. -/
def OnlyActive (p : P) (s : Conf P (MonitorSem C) (MonitorLabel C K) (MonitorMem C D)) : Prop :=
  ∀ q, s.active q = true → q = p

/-- Until another process is active, a `cond_signal` that has waiters goes on. -/
theorem Signalling.run {cv : C} {W : P → Prop} (hi : MonitorInv client s)
    (hs : Signalling client p cv W s) (hW : ∃ q, W q)
    (h : RunWhile (monitor client) (OnlyActive p) s s') :
    MonitorInv client s' ∧ Signalling client p cv W s' := by
  have hinv := RunWhile.invariant (monitor client)
    (I := fun t => MonitorInv client t ∧ Signalling client p cv W t) ?_ ⟨hi, hs⟩ h
  · exact hinv.2
  · intro r t u _ ht hst hu
    refine ⟨ht.1.step hst, ?_⟩
    rcases ht.2.step ht.1 hW hst with ⟨hsig, -⟩ | ⟨q, hne, -, ⟨-, -, hact⟩, -⟩
    · exact hsig
    · exact absurd (hu q hact) hne

omit [DecidableEq P] in
/-- While the unit is in the condition variable, its waiters are awake. -/
theorem Signalling.awake {cv : C} {W : P → Prop} (hi : MonitorInv client s)
    (hs : Signalling client p cv W s) (hp : s.active p = false) :
    s.val (.cond cv) = 1 ∧ ∀ q, W q → (s.pc q).blocked cv = true ∧ s.asleep q = false := by
  rcases hs.place with ⟨hact, -⟩ | ⟨-, hval⟩
  · rw [hp] at hact
    cases hact
  · have hidle : ∀ q, s.active q = false := by
      intro q
      rw [Bool.eq_false_iff]
      intro hact
      rw [hi.token.val_zero hact rfl] at hval
      omega
    obtain ⟨x, -, hx⟩ := hi.token.exists_val hidle
    have hxc : x = .cond cv := hi.token.val_unique rfl rfl (by omega) hval
    subst hxc
    refine ⟨hx, fun q hq => ?_⟩
    have hblocked : (s.pc q).blocked cv = true := by
      refine blocked_of_waits client q ((hs.waiters q).mpr hq) ?_
      rw [← hi.token.active]
      exact hidle q
    refine ⟨hblocked, ?_⟩
    rw [Bool.eq_false_iff]
    intro hasleep
    have hmem : q ∈ (s.sem (.cond cv)).queue := by
      rw [hi.token.queued.mem_iff]
      generalize s.pc q = l at hblocked ⊢
      cases l with
      | waitDown cv' k =>
          have hcv : cv' = cv := of_decide_eq_true hblocked
          subst hcv
          exact ⟨hasleep, _, rfl⟩
      | _ => cases hblocked
    rw [hi.token.queued.full _ hval] at hmem
    cases hmem

/-! ### Suspended signallers -/

/-- Who gets in from the mutex finds no signaller suspended. -/
theorem MonitorInv.mutex_last {r q : P} (hi : MonitorInv client s)
    (h : Step (monitor client) r s s') (hq : GetsIn (monitor client) .mutex q s s') (p : P) :
    (s.pc p).suspended = false := by
  obtain ⟨⟨l₀, hdown⟩, hbefore, hafter⟩ := hq
  have hmoved : ∀ b, s'.active = Function.update s.active r b → q = r := by
    intro b hb
    by_contra hne
    rw [hb, Function.update_of_ne hne, hbefore] at hafter
    cases hafter
  have hsame : s'.active ≠ s.active := by
    intro hsame
    rw [hsame, hbefore] at hafter
    cases hafter
  cases h.effect hi.token.queued with
  | grant x l hinstr hval pc val asleep active mem =>
      have hqr := hmoved _ active
      subst hqr
      rw [hinstr] at hdown
      cases hdown
      exact hi.handed .mutex hval p
  | block x l hinstr hval pc val asleep active mem => exact absurd active hsame
  | release x l hinstr hnone pc val asleep active mem =>
      have hqr := hmoved _ active
      subst hqr
      rw [hinstr] at hdown
      cases hdown
  | handOff x l q' l' hinstr hne hasleep hq' hval pc val asleep active mem =>
      by_cases hqq : q = q'
      · subst hqq
        rw [hq'] at hdown
        cases hdown
        exact hi.bound r .mutex (serves_up (up_cases hinstr)) p
      · rw [active, Function.update_of_ne hqq] at hafter
        have hqr : q = r := by
          by_contra hne'
          rw [Function.update_of_ne hne', hbefore] at hafter
          cases hafter
        subst hqr
        rw [hinstr] at hdown
        cases hdown
  | exec f hinstr pc val asleep active mem => exact absurd active hsame
  | choose R l hinstr hl pc val asleep active mem => exact absurd active hsame

/-- A suspended signaller stays where it is, or it becomes active. -/
theorem MonitorInv.suspended_step {r : P} (hi : MonitorInv client s)
    (h : Step (monitor client) r s s') (hp : (s.pc p).suspended = true) :
    (s'.pc p).suspended = true ∨ s'.active p = true := by
  by_cases hsame : s'.pc p = s.pc p
  · rw [hsame]
    exact .inl hp
  · refine .inr ?_
    have hmoved : ∀ l, s'.pc = Function.update s.pc r l → p = r := by
      intro l hl
      by_contra hne
      exact hsame (by rw [hl, Function.update_of_ne hne])
    cases h.effect hi.token.queued with
    | grant x l hinstr hval pc val asleep active mem =>
        rw [hmoved _ pc, active, Function.update_self]
        exact Bool.or_true _
    | block x l hinstr hval pc val asleep active mem => exact absurd (by rw [pc]) hsame
    | release x l hinstr hnone pc val asleep active mem =>
        have hpr := hmoved _ pc
        subst hpr
        have hup := up_cases hinstr
        generalize s.pc p = l₀ at hup hp
        cases hup <;> cases hp
    | handOff x l q l' hinstr hne hasleep hq hval pc val asleep active mem =>
        by_cases hpq : p = q
        · rw [hpq, active, Function.update_self]
          exact Bool.or_true _
        · have hpr : p = r := by
            by_contra hpr
            exact hsame (by rw [pc, Function.update_of_ne hpq, Function.update_of_ne hpr])
          subst hpr
          have hup := up_cases hinstr
          generalize s.pc p = l₀ at hup hp
          cases hup <;> cases hp
    | exec f hinstr pc val asleep active mem =>
        have hpr := hmoved _ pc
        subst hpr
        have hexec := exec_cases hinstr s.mem
        generalize s.pc p = l₀ at hexec hp
        generalize (f s.mem).1 = l at hexec
        generalize (f s.mem).2 = m at hexec
        cases hexec <;> cases hp
    | choose R l hinstr hl pc val asleep active mem =>
        have hpr := hmoved _ pc
        subst hpr
        obtain ⟨k, Q, hk, hcall, hR⟩ := choose_cases hinstr
        rw [hk] at hp
        cases hp

/-- In any run a suspended signaller stays where it is, or it was active in between. -/
theorem MonitorInv.suspended_run (hi : MonitorInv client s) (h : Run (monitor client) s s')
    (hp : (s.pc p).suspended = true) :
    (s'.pc p).suspended = true ∨
      ∃ v, Run (monitor client) s v ∧ v.active p = true ∧ Run (monitor client) v s' := by
  induction h with
  | refl => exact .inl hp
  | @step t u r hrun hst ih =>
      have hstep : Run (monitor client) t u := .step r .refl hst
      rcases ih with hsus | ⟨v, hv, hact, hvt⟩
      · rcases (monitorInv_of_run hi hrun).suspended_step hst hsus with hsus' | hact
        · exact .inl hsus'
        · exact .inr ⟨u, .step r hrun hst, hact, .refl⟩
      · exact .inr ⟨v, hv, hact, Run.trans (monitor client) hvt hstep⟩

/-- The monitor of `monitor.c`, in every state `s` of every run of any client.

There is one token: the values of `mutex`, `next` and the condition variables and the
number of active processes sum to one, so at most one process is active.

A process that calls `cond_signal` on a condition with waiters makes one of them the next
active process. As long as no other process is active, the waiters stay the same, and the
signaller is on its way to the up, or the unit is in the condition variable and every
waiter is awake in front of it. The first other process to become active is one of the
waiters, by its down on the condition variable; then the signaller is suspended and no
further process is active.

A suspended signaller is active again before any process gets in from the mutex. -/
theorem monitor_correct (client : Client P C K D) (start : P → K) (data : D)
    (hstart : ∀ p, client.inside p (start p) = false)
    (s : Conf P (MonitorSem C) (MonitorLabel C K) (MonitorMem C D))
    (hrun : Run (monitor client) (monitor_init start data) s) :
    (s.val .mutex + s.val .next + (∑ cv, s.val (.cond cv)) +
        ((Finset.univ.filter fun p => s.active p = true).card : Int) = 1 ∧
      ∀ p q, s.active p = true → s.active q = true → p = q) ∧
    (∀ p cv k k', s.pc p = .client k → client.call p k = .signal cv k' →
      (∃ q, (s.pc q).waits cv = true) →
        ∀ t, RunWhile (monitor client) (OnlyActive p) s t →
          (∀ q, (t.pc q).waits cv = true ↔ (s.pc q).waits cv = true) ∧
          (t.active p = true ∨ (t.val (.cond cv) = 1 ∧
            ∀ q, (s.pc q).waits cv = true → (t.pc q).blocked cv = true ∧ t.asleep q = false)) ∧
          ∀ r u, Step (monitor client) r t u → ∀ q, q ≠ p → u.active q = true →
            (s.pc q).waits cv = true ∧ GetsIn (monitor client) (.cond cv) q t u ∧
              (u.pc p).suspended = true ∧ ∀ q', u.active q' = true → q' = q) ∧
    (∀ p, (s.pc p).suspended = true → ∀ t, Run (monitor client) s t →
      ∀ r u q, Step (monitor client) r t u → GetsIn (monitor client) .mutex q t u →
        ∃ v, Run (monitor client) s v ∧ v.active p = true ∧ Run (monitor client) v t) := by
  have hi := monitorInv_of_run (monitorInv_init start data hstart) hrun
  refine ⟨⟨hi.sum, fun p q hp hq => hi.token.unique hp hq⟩, ?_, ?_⟩
  · intro p cv k k' hk hcall hW t hrunWhile
    have hp : s.active p = true := by
      rw [hi.token.active, hk]
      exact (client.signal p k cv k' hcall).1
    have hsig : Signalling client p cv (fun q => (s.pc q).waits cv = true) s :=
      ⟨fun q => Iff.rfl, .inl ⟨hp, .inl ⟨k, k', hk, hcall⟩⟩⟩
    obtain ⟨ht, hsig⟩ := hsig.run hi hW hrunWhile
    refine ⟨hsig.waiters, ?_, ?_⟩
    · by_cases hact : t.active p = true
      · exact .inl hact
      · exact .inr (hsig.awake ht (Bool.eq_false_iff.mpr hact))
    · intro r u hst q hne hact
      have hu := ht.step hst
      rcases hsig.step ht hW hst with ⟨-, honly⟩ | ⟨q', -, hq', hin, hsus⟩
      · exact absurd (honly q hact) hne
      · have hqq : q = q' := hu.token.unique hact hin.2.2
        subst hqq
        exact ⟨hq', hin, hsus, fun q' hq' => hu.token.unique hq' hact⟩
  · intro p hp t hrun' r u q hst hq
    rcases hi.suspended_run hrun' hp with hsus | hv
    · have hnone := (monitorInv_of_run hi hrun').mutex_last hst hq p
      rw [hsus] at hnone
      cases hnone
    · exact hv

end

/-- The labels of a process that enters, makes one call and leaves. -/
inductive Turn
  | enter
  | call
  | leave
  | out

/-- One process waits on the only condition variable, the other one signals it. -/
def waitAndSignal : Client Bool Unit Turn Unit where
  call
    | _, .enter => .enter .call
    | true, .call => .signal () .leave
    | false, .call => .wait () .leave
    | _, .leave => .leave .out
    | _, .out => .exec fun d => (.out, d)
  inside
    | _, .call | _, .leave => true
    | _, .enter | _, .out => false
  enter p k k' h := by cases p <;> cases k <;> cases h <;> exact ⟨rfl, rfl⟩
  leave p k k' h := by cases p <;> cases k <;> cases h <;> exact ⟨rfl, rfl⟩
  signal p k cv k' h := by
    cases p <;> cases k <;> cases h
    exact ⟨rfl, rfl⟩
  wait p k cv k' h := by
    cases p <;> cases k <;> cases h
    exact ⟨rfl, rfl⟩
  exec p k f h d := by cases p <;> cases k <;> cases h <;> rfl
  choose p k R h k' hk' := by cases p <;> cases k <;> cases h

/-- The waiter has raised `count` and gone up on `mutex`, and it is not asleep yet when the
signaller comes to its `cond_signal`. -/
theorem waitAndSignal_handsOver : ∃ s, Run (monitor waitAndSignal)
      (monitor_init (fun _ => .enter) ()) s ∧ s.asleep false = false ∧
    s.pc true = .client .call ∧ ∀ t, RunWhile (monitor waitAndSignal) (OnlyActive true) s t →
      ∀ r u, Step (monitor waitAndSignal) r t u → u.active false = true →
        GetsIn (monitor waitAndSignal) (.cond ()) false t u ∧ (u.pc true).suspended = true := by
  obtain ⟨s, hs⟩ : ∃ s, (monitor_init (fun _ => .enter) ()).schedule (monitor waitAndSignal)
      [false, false, false, false, true] = some s := ⟨_, rfl⟩
  have hrun := run_of_schedule (monitor waitAndSignal) .refl hs
  have hpc : s.pc true = .client .call := by
    cases hs
    rfl
  have hwaits : (s.pc false).waits () = true := by
    cases hs
    rfl
  refine ⟨s, hrun, ?_, hpc, ?_⟩
  · cases hs
    rfl
  · intro t ht r u hst hact
    have hsignal := (monitor_correct waitAndSignal (fun _ => .enter) () (fun _ => rfl) s hrun).2.1
    have hnext := (hsignal true () .call .leave hpc rfl ⟨false, hwaits⟩ t ht).2.2 r u hst false
      (by decide) hact
    exact ⟨hnext.2.1, hnext.2.2.1⟩

end Ucore.Proofs.Sync
