import Ucore.Proofs.Sync.Monitor
import Ucore.Proofs.Sync.PhiSema
import Mathlib

/-!
# `Ucore.Proofs.Sync.PhiCondvar`: the philosophers with a monitor

Every step of the philosophers of `phiCondvar` is a step of the table, through the roles of the
labels (`condvarRole`). `CondvarInv` adds what the labels say about the philosopher's own state, and
the account of the wake-ups: a philosopher that is being woken (`Called`) eats, and one that is
blocked and eats is being woken.

The philosophers are a client of the monitor, so the invariant of the monitor is a part of
`CondvarInv`, and one philosopher is active at a time. A philosopher that passes the test for a
neighbour makes it eat and then signals its condition variable. In between, and until the neighbour
runs, the neighbour is blocked and eats; at all other times who is blocked is hungry. `aims` says
whom a label is about to wake, and `called_iff` that only the active philosopher wakes anybody.

* `CondvarInv.execFits`: what an instruction on the states comes to, one case for each label.
* `CondvarInv.step_handOff`: the token goes from one philosopher to the next.
* `CondvarInv.quiet`, `CondvarInv.hungry_of_blocked`: with nobody active, everybody has made all of
  its tests.

`philosophers_safe` is about both protocols. Neighbours never eat at the same time, and when nobody
is active, a hungry philosopher has a neighbour that eats. `second_philosopher_waits` shows a state
of each protocol in which one eats and its neighbour waits.
-/

set_option autoImplicit false

namespace Ucore.Proofs.Sync

open Ucore.Lib
open Ucore.Sync

/-- The labels of the philosophers. -/
abbrev PhiLabel (n : Nat) := MonitorLabel (Fin n) CondvarLabel

/-- The role of a philosopher that goes on at `k` behind its signal. -/
def signalRole : CondvarLabel → Role
  | .test w => .testing w
  | _ => .quiet

/-- The role of a philosopher at the table. -/
def condvarRole {n : Nat} : PhiLabel n → Role
  | .client (.test w) => .testing w
  | .client (.setEating w) => .granting w
  | .client (.signal w) => .after w
  | .signalInc _ k | .signalUp _ k | .signalDown _ k | .signalDec _ k => signalRole k
  | _ => .quiet

/-- What a label of the client says about the state of the philosopher. -/
def clientFits : CondvarLabel → PhiState → Prop
  | .think, c | .setHungry, c => c = .thinking
  | .test .own, c | .setEating .own, c => c = .hungry
  | .signal .own, c => c = .eating
  | .check, c => c ≠ .thinking
  | .wait, c => c = .hungry
  | .takeLeave, c | .eat, c | .setThinking, c => c = .eating
  | .test _, c | .setEating _, c | .signal _, c | .putLeave, c => c = .thinking

/-- The same in a `cond_signal` that goes on at `k`. -/
def signalFits : CondvarLabel → PhiState → Prop
  | .check, c => c = .eating
  | .test .right, c | .putLeave, c => c = .thinking
  | _, _ => False

/-- The same on leaving the monitor for `k`. -/
def leaveFits : CondvarLabel → PhiState → Prop
  | .eat, c => c = .eating
  | .think, c => c = .thinking
  | _, _ => False

/-- What a label says about the state of the philosopher `p`. A philosopher waits on its
own condition variable only. -/
def condvarFits {n : Nat} (p : Fin n) : PhiLabel n → PhiState → Prop
  | .client k, c => clientFits k c
  | .signalInc _ k, c | .signalUp _ k, c | .signalDown _ k, c | .signalDec _ k, c => signalFits k c
  | .waitTest cv k, c | .waitUpNext cv k, c | .waitUpMutex cv k, c =>
      cv = p ∧ k = .takeLeave ∧ c = .hungry
  | .waitDown cv k, c => cv = p ∧ k = .takeLeave ∧ c ≠ .thinking
  | .waitDec cv k, c => cv = p ∧ k = .takeLeave ∧ c = .eating
  | .leaveUpNext k, c | .leaveUpMutex k, c => leaveFits k c

/-- Whom a philosopher is about to wake. -/
def aims {n : Nat} (p : Fin n) : PhiLabel n → Option (Fin n)
  | .client (.signal w) => some (w.of p)
  | .signalInc cv _ | .signalUp cv _ => some cv
  | _ => none

variable {n : Nat}

/-- Somebody is about to wake `i`, or has just done so. -/
def Called (s : Conf (Fin n) (MonitorSem (Fin n)) (PhiLabel n)
    (MonitorMem (Fin n) (Fin n → PhiState))) (i : Fin n) : Prop :=
  (∃ p, aims p (s.pc p) = some i) ∨ 0 < s.val (.cond i)

/-- The philosophers at any time. -/
structure CondvarInv (s : Conf (Fin n) (MonitorSem (Fin n)) (PhiLabel n)
    (MonitorMem (Fin n) (Fin n → PhiState))) : Prop where
  mtp : MonitorInv (phiCondvar n) s
  table : TableInv s.mem.data (condvarRole ∘ s.pc)
  fits : ∀ p, condvarFits p (s.pc p) (s.mem.data p)
  called : ∀ i, Called s i → s.mem.data i = .eating
  waking : ∀ i, s.mem.data i = .eating → (s.pc i).blocked i = true → Called s i

/-! ### The labels -/

variable {p : Fin n} {l l' : PhiLabel n}

/-- A `down` does not change the role of a philosopher. -/
theorem condvarRole_down {x : MonitorSem (Fin n)} (h : DownAt (phiCondvar n) p l x l') :
    condvarRole l' = condvarRole l := by
  cases h with
  | enter k k' hcall => cases k <;> cases hcall <;> rfl
  | _ => rfl

/-- An `up` does not change the role of a philosopher. -/
theorem condvarRole_up {x : MonitorSem (Fin n)} (h : UpAt l x l') {c : PhiState}
    (hfits : condvarFits p l c) : condvarRole l' = condvarRole l := by
  cases h with
  | leaveNext k =>
      change leaveFits k c at hfits
      cases k <;> first | rfl | exact hfits.elim
  | leaveMutex k =>
      change leaveFits k c at hfits
      cases k <;> first | rfl | exact hfits.elim
  | _ => rfl

/-- Behind a `down` a philosopher is not about to wake anybody. -/
theorem aims_down {x : MonitorSem (Fin n)} (h : DownAt (phiCondvar n) p l x l') :
    aims p l' = none := by
  cases h with
  | enter k k' hcall => cases k <;> cases hcall <;> rfl
  | _ => rfl

/-- An `up` wakes the one that the philosopher was about to wake. -/
theorem aims_up {x : MonitorSem (Fin n)} (h : UpAt l x l') {c : PhiState}
    (hfits : condvarFits p l c) (i : Fin n) :
    (aims p l = some i ↔ x = .cond i) ∧ aims p l' = none := by
  cases h with
  | leaveNext k =>
      change leaveFits k c at hfits
      cases k <;> first | exact ⟨by simp [aims], rfl⟩ | exact hfits.elim
  | leaveMutex k =>
      change leaveFits k c at hfits
      cases k <;> first | exact ⟨by simp [aims], rfl⟩ | exact hfits.elim
  | _ => exact ⟨by simp [aims], rfl⟩

/-- A philosopher that is about to wake another one has the token. -/
theorem holds_of_aims {i : Fin n} (h : aims p l = some i) : holds (phiCondvar n) p l = true := by
  cases l with
  | client k =>
      cases k with
      | signal w => rfl
      | _ => cases h
  | signalInc cv k => rfl
  | signalUp cv k => rfl
  | _ => cases h

/-- A label behind an `up` fits the state that the one before fitted. -/
theorem fits_of_up {x : MonitorSem (Fin n)} {c : PhiState} (h : UpAt l x l')
    (hfits : condvarFits p l c) : condvarFits p l' c := by
  cases h with
  | signal cv k => exact hfits
  | waitNext cv k =>
      obtain ⟨hcv, hk, hc⟩ := hfits
      exact ⟨hcv, hk, by rw [hc]; decide⟩
  | waitMutex cv k =>
      obtain ⟨hcv, hk, hc⟩ := hfits
      exact ⟨hcv, hk, by rw [hc]; decide⟩
  | leaveNext k =>
      change leaveFits k c at hfits
      cases k <;> first | exact hfits | exact hfits.elim
  | leaveMutex k =>
      change leaveFits k c at hfits
      cases k <;> first | exact hfits | exact hfits.elim

/-- A label behind a `down` fits, provided that who was woken is eating. -/
theorem fits_of_down {x : MonitorSem (Fin n)} {c : PhiState} (h : DownAt (phiCondvar n) p l x l')
    (hfits : condvarFits p l c) (hx : x = .cond p → c = .eating) : condvarFits p l' c := by
  cases h with
  | enter k k' hcall =>
      change clientFits k c at hfits
      cases k <;> cases hcall <;> exact hfits
  | signal cv k => exact hfits
  | wait cv k =>
      obtain ⟨rfl, hk, -⟩ := hfits
      exact ⟨rfl, hk, hx rfl⟩

/-- A philosopher that is hungry outside the monitor is blocked on its condition
variable. -/
theorem blocked_of_hungry (hfits : condvarFits p l .hungry)
    (hout : holds (phiCondvar n) p l = false) : ∃ k, l = .waitDown p k := by
  cases l with
  | client k =>
      change clientFits k .hungry at hfits
      cases k with
      | think | eat => cases hfits
      | _ => cases hout
  | signalDown cv k =>
      change signalFits k .hungry at hfits
      cases k with
      | test w => cases w <;> cases hfits
      | check | putLeave => cases hfits
      | _ => exact hfits.elim
  | waitDown cv k =>
      obtain ⟨rfl, -, -⟩ := hfits
      exact ⟨k, rfl⟩
  | _ => cases hout

/-! ### The steps -/

variable {s s' : Conf (Fin n) (MonitorSem (Fin n)) (PhiLabel n)
  (MonitorMem (Fin n) (Fin n → PhiState))}

/-- While `p` is active, only `p` wakes anybody. -/
theorem CondvarInv.called_iff (hi : CondvarInv s) (hp : s.active p = true) (i : Fin n) :
    Called s i ↔ aims p (s.pc p) = some i := by
  constructor
  · rintro (⟨q, hq⟩ | hval)
    · have hact : s.active q = true := by
        rw [hi.mtp.token.active]
        exact holds_of_aims hq
      rw [← hi.mtp.token.unique hact hp]
      exact hq
    · rw [hi.mtp.token.val_zero hp rfl] at hval
      omega
  · exact fun h => .inl ⟨p, h⟩

/-- Behind a granted down nobody is being woken any more. -/
theorem not_called (hi : MonitorInv (phiCondvar n) s) (hp : s.active p = true)
    (haims : aims p (s.pc p) = none) (i : Fin n) : ¬ Called s i := by
  rintro (⟨q, hq⟩ | hval)
  · have hact : s.active q = true := by
      rw [hi.token.active]
      exact holds_of_aims hq
    rw [hi.token.unique hact hp, haims] at hq
    cases hq
  · rw [hi.token.val_zero hp rfl] at hval
    omega

/-- An instruction of a philosopher on the memory is inside the monitor. -/
theorem CondvarInv.active_of_exec (hi : CondvarInv s) {m' : MonitorMem (Fin n) (Fin n → PhiState)}
    (h : ExecAt (phiCondvar n) p s.mem (s.pc p) l' m') : s.active p = true := by
  rw [hi.mtp.token.active]
  generalize s.pc p = l at h
  cases h with
  | leaveNext k k' hcall | leaveMutex k k' hcall => exact ((phiCondvar n).leave p k k' hcall).1
  | signal k k' cv hcall | signalNone k k' cv hcall =>
      exact ((phiCondvar n).signal p k cv k' hcall).1
  | wait k k' cv hcall => exact ((phiCondvar n).wait p k cv k' hcall).1
  | data k f hcall => cases k <;> cases hcall <;> rfl
  | _ => rfl

/-- Who holds a passed test is the active philosopher. -/
theorem CondvarInv.granting_only (hi : CondvarInv s) (hp : s.active p = true) {q : Fin n}
    {w : Seat} (hq : (condvarRole ∘ s.pc) q = .granting w) : q = p := by
  refine hi.mtp.token.unique ?_ hp
  rw [hi.mtp.token.active]
  have hsignal : ∀ k, signalRole k ≠ .granting w := by
    intro k
    cases k <;> exact fun h => by cases h
  change condvarRole (s.pc q) = _ at hq
  generalize s.pc q = l at hq
  cases l with
  | client k =>
      cases k with
      | setEating w' => rfl
      | signal w' => exact absurd hq (Role.after_ne w' w)
      | _ => cases hq
  | signalInc cv k | signalUp cv k | signalDown cv k | signalDec cv k =>
      exact absurd hq (hsignal k)
  | _ => cases hq

/-- What an instruction of the philosopher `p` on the memory comes to: a step of the table,
a label that fits, and the philosopher that is being woken. -/
structure ExecFits (s : Conf (Fin n) (MonitorSem (Fin n)) (PhiLabel n)
    (MonitorMem (Fin n) (Fin n → PhiState))) (p : Fin n) (l : PhiLabel n)
    (state : Fin n → PhiState) : Prop where
  table : TableStep p s.mem.data (condvarRole ∘ s.pc) state
    (Function.update (condvarRole ∘ s.pc) p (condvarRole l))
  fits : condvarFits p l (state p)
  other : ∀ q, q ≠ p → state q = s.mem.data q ∨ (s.mem.data q = .hungry ∧ state q = .eating)
  called : ∀ i, aims p l = some i → state i = .eating
  waking : ∀ i, state i = .eating → (s.pc i).blocked i = true → aims p l = some i

/-- An instruction that leaves the states as they are. -/
theorem CondvarInv.execFits_still (hi : CondvarInv s) (hp : s.active p = true)
    (hrole : condvarRole l = condvarRole (s.pc p)) (hfits : condvarFits p l (s.mem.data p))
    (haims : aims p l = aims p (s.pc p)) : ExecFits s p l s.mem.data := by
  refine ⟨?_, hfits, fun q _ => .inl rfl, ?_, ?_⟩
  · rw [hrole]
    have hself : Function.update (condvarRole ∘ s.pc) p (condvarRole (s.pc p)) =
        condvarRole ∘ s.pc := Function.update_eq_self p (condvarRole ∘ s.pc)
    rw [hself]
    exact .still
  · intro i hi'
    rw [haims] at hi'
    exact hi.called i ((hi.called_iff hp i).mpr hi')
  · intro i heat hblocked
    rw [haims]
    exact (hi.called_iff hp i).mp (hi.waking i heat hblocked)

/-- An instruction on the states, by a philosopher that wakes nobody yet. -/
theorem CondvarInv.nobody_called (hi : CondvarInv s) (hp : s.active p = true)
    (haims : aims p (s.pc p) = none) {i : Fin n} (heat : s.mem.data i = .eating)
    (hblocked : (s.pc i).blocked i = true) : False := by
  have hcalled := (hi.called_iff hp i).mp (hi.waking i heat hblocked)
  rw [haims] at hcalled
  cases hcalled

/-- An instruction on the own state of a philosopher that is not blocked. -/
theorem CondvarInv.execFits_own (hi : CondvarInv s) (hp : s.active p = true) {c : PhiState}
    (htable : TableStep p s.mem.data (condvarRole ∘ s.pc) (Function.update s.mem.data p c)
      (Function.update (condvarRole ∘ s.pc) p (condvarRole l)))
    (hfits : condvarFits p l c) (hblocked : (s.pc p).blocked p = false)
    (hold : aims p (s.pc p) = none) (hnew : ∀ i, aims p l = some i → i = p ∧ c = .eating) :
    ExecFits s p l (Function.update s.mem.data p c) := by
  refine ⟨htable, ?_, fun q hq => .inl (Function.update_of_ne hq _ _), ?_, ?_⟩
  · rw [Function.update_self]
    exact hfits
  · intro i hi'
    obtain ⟨rfl, rfl⟩ := hnew i hi'
    exact Function.update_self ..
  · intro i heat hb
    have hip : i ≠ p := by
      rintro rfl
      rw [hblocked] at hb
      cases hb
    rw [Function.update_of_ne hip] at heat
    exact (hi.nobody_called hp hold heat hb).elim

/-- What an instruction on the memory does. -/
theorem CondvarInv.execFits (hi : CondvarInv s) {m' : MonitorMem (Fin n) (Fin n → PhiState)}
    (h : ExecAt (phiCondvar n) p s.mem (s.pc p) l m') : ExecFits s p l m'.data := by
  have hp := hi.active_of_exec h
  have hfits := hi.fits p
  -- Only `client` runs code of the philosophers; the other labels are the body of `cond_signal` and
  -- `cond_wait`, which touch the counters of the monitor and no state of a philosopher.
  cases hl : s.pc p with
  | client k =>
      rw [hl] at h hfits
      cases h with
      | leaveNext _ k' hcall | leaveMutex _ k' hcall =>
          cases k with
          | takeLeave | putLeave =>
              cases hcall
              exact hi.execFits_still hp (by rw [hl]; rfl) hfits (by rw [hl]; rfl)
          | _ => cases hcall
      | signal _ k' cv hcall =>
          cases k with
          | signal w =>
              cases hcall
              refine hi.execFits_still hp ?_ ?_ (by rw [hl]; rfl)
              · rw [hl]
                cases w <;> rfl
              · cases w <;> exact hfits
          | _ => cases hcall
      | signalNone _ k' cv hcall hcount =>
          cases k with
          | signal w =>
              cases hcall
              have hrole : condvarRole (.client (.after w) : PhiLabel n) = condvarRole (s.pc p) := by
                rw [hl]
                cases w <;> rfl
              have hnone : aims p (.client (.after w)) = none := by cases w <;> rfl
              have hafter : condvarFits p (.client (.after w)) (s.mem.data p) := by
                cases w with
                | own =>
                    have hc : s.mem.data p = .eating := hfits
                    rw [hc]
                    exact fun heq => by cases heq
                | _ => exact hfits
              have hself : Function.update (condvarRole ∘ s.pc) p (condvarRole (s.pc p)) =
                  condvarRole ∘ s.pc := Function.update_eq_self p (condvarRole ∘ s.pc)
              refine ⟨?_, hafter, fun q _ => .inl rfl, ?_, ?_⟩
              · rw [hrole, hself]
                exact .still
              · intro i hi'
                rw [hnone] at hi'
                cases hi'
              · -- Nobody waits on the condition variable.
                intro i heat hblocked
                have hcalled := (hi.called_iff hp i).mp (hi.waking i heat hblocked)
                rw [hl] at hcalled
                cases hcalled
                have hpos := (hi.mtp.exists_blocked hp (by rw [hl]; rfl)).mpr ⟨_, hblocked⟩
                omega
          | _ => cases hcall
      | wait _ k' cv hcall =>
          cases k with
          | wait =>
              cases hcall
              exact hi.execFits_still hp (by rw [hl]; rfl) ⟨rfl, rfl, hfits⟩ (by rw [hl]; rfl)
          | _ => cases hcall
      | data _ f hcall =>
          have hblocked : (s.pc p).blocked p = false := by rw [hl]; rfl
          have hrole : (condvarRole ∘ s.pc) p = condvarRole (.client k) := congrArg condvarRole hl
          cases k with
          | setHungry =>
              cases hcall
              exact hi.execFits_own hp (.hungry hfits hrole) rfl hblocked (by rw [hl]; rfl)
                (fun i hi' => by cases hi')
          -- The condition of `phi_test_condvar`. It reads the states and writes nothing, so that
          -- only the label has to be checked: the grant when a hungry philosopher has no eating
          -- neighbour, and the label behind the test otherwise.
          | test w =>
              cases hcall
              dsimp only
              have hnone : ∀ b : Bool, aims p
                  (.client (if b = true then .setEating w else .after w)) = none := by
                intro b
                cases b <;> cases w <;> rfl
              refine ⟨?_, ?_, fun q _ => .inl rfl, ?_, ?_⟩
              · split
                · rename_i hmay
                  exact .pass w hrole hmay
                · rename_i hmay
                  have hafter : condvarRole (.client (.after w) : PhiLabel n) = .after w := by
                    cases w <;> rfl
                  rw [hafter]
                  exact .fail w hrole (by simpa using hmay)
              · split
                · cases w <;> exact hfits
                · cases w with
                  | own =>
                      have hc : s.mem.data p = .hungry := hfits
                      rw [hc]
                      exact fun heq => by cases heq
                  | _ => exact hfits
              · intro i hi'
                rw [hnone] at hi'
                cases hi'
              · intro i heat hb
                exact (hi.nobody_called hp (by rw [hl]; rfl) heat hb).elim
          -- The one write to the state of another philosopher: `w.of p` is `p` itself in a take,
          -- and one of its neighbours in a put. What `p` was granted stays true, since the monitor
          -- is held.
          | setEating w =>
              cases hcall
              dsimp only
              have hhungry := (mayEat_iff.mp (hi.table.granting p w hrole)).1
              refine ⟨.grant w hrole, ?_, fun q hq => ?_, fun i hi' => ?_, fun i heat hb => ?_⟩
              · cases w with
                | own => exact Function.update_self ..
                | left | right =>
                    have hc : s.mem.data p = .thinking := hfits
                    refine (Function.update_of_ne ?_ _ _).trans hc
                    intro hseat
                    rw [← hseat, hc] at hhungry
                    cases hhungry
              · by_cases hqt : q = w.of p
                · subst hqt
                  exact .inr ⟨hhungry, Function.update_self ..⟩
                · exact .inl (Function.update_of_ne hqt _ _)
              · cases hi'
                exact Function.update_self ..
              · by_cases hit : i = w.of p
                · subst hit
                  rfl
                · rw [Function.update_of_ne hit] at heat
                  exact (hi.nobody_called hp (by rw [hl]; rfl) heat hb).elim
          -- The test of `phi_take_forks_condvar`, an `if` and not a loop: a philosopher that is
          -- hungry waits, and one that is not has been granted its forks by now.
          | check =>
              cases hcall
              dsimp only
              have hc : s.mem.data p ≠ .thinking := hfits
              split
              · rename_i hhungry
                exact hi.execFits_still hp (by rw [hl]; rfl) hhungry (by rw [hl]; rfl)
              · rename_i hhungry
                refine hi.execFits_still hp (by rw [hl]; rfl) ?_ (by rw [hl]; rfl)
                show s.mem.data p = .eating
                cases hcase : s.mem.data p with
                | thinking => exact absurd hcase hc
                | hungry => exact absurd hcase hhungry
                | eating => rfl
          | setThinking =>
              cases hcall
              exact hi.execFits_own hp (.think hfits hrole) rfl hblocked (by rw [hl]; rfl)
                (fun i hi' => by cases hi')
          | _ => cases hcall
  | signalInc cv k =>
      rw [hl] at h hfits
      cases h
      exact hi.execFits_still hp (by rw [hl]; rfl) hfits (by rw [hl]; rfl)
  -- `cond_signal` comes back. `k` says where it was called from, and of the three places only the
  -- one behind the grant of a take still needs the state of its philosopher.
  | signalDec cv k =>
      rw [hl] at h hfits
      cases h
      change signalFits k _ at hfits
      cases k with
      | check =>
          have hc : s.mem.data p = .eating := hfits
          refine hi.execFits_still hp (by rw [hl]; rfl) ?_ (by rw [hl]; rfl)
          rw [hc]
          exact fun heq => by cases heq
      | putLeave => exact hi.execFits_still hp (by rw [hl]; rfl) hfits (by rw [hl]; rfl)
      | test w =>
          cases w with
          | right => exact hi.execFits_still hp (by rw [hl]; rfl) hfits (by rw [hl]; rfl)
          | _ => exact hfits.elim
      | _ => exact hfits.elim
  | waitTest cv k =>
      rw [hl] at h hfits
      cases h <;> exact hi.execFits_still hp (by rw [hl]; rfl) hfits (by rw [hl]; rfl)
  | waitDec cv k =>
      rw [hl] at h hfits
      cases h
      obtain ⟨rfl, rfl, hc⟩ := hfits
      exact hi.execFits_still hp (by rw [hl]; rfl) hc (by rw [hl]; rfl)
  | _ =>
      rw [hl] at h
      cases h

/-- Labels that fit, after the label of one philosopher has changed. -/
theorem condvarFits_update {pc : Fin n → PhiLabel n} {state : Fin n → PhiState}
    (h : ∀ q, condvarFits q (pc q) (state q)) (hl : condvarFits p l (state p)) (q : Fin n) :
    condvarFits q (Function.update pc p l q) (state q) := by
  by_cases hq : q = p
  · subst hq
    rw [Function.update_self]
    exact hl
  · rw [Function.update_of_ne hq]
    exact h q

/-- A philosopher that goes up does not become one that eats and is blocked. -/
theorem not_blocked_up {x : MonitorSem (Fin n)} (h : UpAt l x l') {c : PhiState}
    (hfits : condvarFits p l c) (heat : c = .eating) (i : Fin n) : l'.blocked i = false := by
  cases h with
  | waitNext cv k | waitMutex cv k =>
      obtain ⟨-, -, hc⟩ := hfits
      rw [heat] at hc
      cases hc
  | _ => rfl

/-- The token of the philosopher `p` went to the philosopher `q`. -/
theorem CondvarInv.step_handOff (hi : CondvarInv s) (hi' : MonitorInv (phiCondvar n) s')
    {x : MonitorSem (Fin n)} {q : Fin n} (hup : UpAt (s.pc p) x l)
    (hq : DownAt (phiCondvar n) q (s.pc q) x l') (hne : q ≠ p)
    (hpc : s'.pc = Function.update (Function.update s.pc p l) q l')
    (hactive : s'.active q = true) (hmem : s'.mem = s.mem) : CondvarInv s' := by
  have hp : s.active p = true := by
    rw [hi.mtp.token.active]
    exact holds_of_serves (serves_up hup)
  have hnone : ∀ i, ¬ Called s' i := by
    refine not_called hi' hactive ?_
    rw [hpc, Function.update_self]
    exact aims_down hq
  refine ⟨hi', ?_, ?_, fun i hcalled => absurd hcalled (hnone i), fun i heat hblocked => ?_⟩
  · rw [hmem, hpc, comp_update_same, comp_update_same (condvarRole_up hup (hi.fits p))]
    · exact hi.table
    · rw [Function.update_of_ne hne]
      exact condvarRole_down hq
  · rw [hmem, hpc]
    refine condvarFits_update (condvarFits_update hi.fits (fits_of_up hup (hi.fits p)))
      (fits_of_down hq (hi.fits q) ?_)
    rintro rfl
    exact hi.called q (.inl ⟨p, ((aims_up hup (hi.fits p) q).1).mpr rfl⟩)
  · exfalso
    rw [hmem] at heat
    rw [hpc] at hblocked
    by_cases hiq : i = q
    · subst hiq
      rw [Function.update_self] at hblocked
      generalize s.pc i = l₀ at hq
      cases hq <;> cases hblocked
    · rw [Function.update_of_ne hiq] at hblocked
      by_cases hip : i = p
      · subst hip
        rw [Function.update_self, not_blocked_up hup (hi.fits i) heat] at hblocked
        cases hblocked
      · rw [Function.update_of_ne hip] at hblocked
        -- `p` wakes `i`, so `q` was at the down of `i`.
        have haims := (hi.called_iff hp i).mp (hi.waking i heat hblocked)
        have hx := ((aims_up hup (hi.fits p) i).1).mp haims
        subst hx
        have hfits := hi.fits q
        generalize s.pc q = l₀ at hq hfits
        cases hq
        exact hiq hfits.1

/-- Every step of every philosopher keeps the invariant. -/
theorem CondvarInv.step (hn : 2 ≤ n) (hi : CondvarInv s)
    (h : Step (monitor (phiCondvar n)) p s s') : CondvarInv s' := by
  have hi' := hi.mtp.step h
  -- One case for each thing a step can do. What has to be shown again each time is who is being
  -- called (`Called`): at most one philosopher, by a signaller that has the token or by a unit on
  -- its semaphore.
  cases h.effect hi.mtp.token.queued with
  | grant x l hinstr hval pc val asleep active mem =>
      have hd := down_cases hinstr
      have hactive : s'.active p = true := by
        rw [active, Function.update_self]
        exact Bool.or_true _
      have hnone : ∀ i, ¬ Called s' i := by
        refine not_called hi' hactive ?_
        rw [pc, Function.update_self]
        exact aims_down hd
      refine ⟨hi', ?_, ?_, fun i hcalled => absurd hcalled (hnone i), fun i heat hblocked => ?_⟩
      · rw [mem, pc, comp_update_same (condvarRole_down hd)]
        exact hi.table
      · rw [mem, pc]
        refine condvarFits_update hi.fits (fits_of_down hd (hi.fits p) ?_)
        rintro rfl
        exact hi.called p (.inr hval)
      -- `i` eats and is asleep on its condition variable. Then it was called before this step, and
      -- its unit is the one that `p` has just taken, so `p` is `i`, which is not asleep any more.
      · exfalso
        rw [mem] at heat
        rw [pc] at hblocked
        by_cases hip : i = p
        · subst hip
          rw [Function.update_self] at hblocked
          generalize s.pc i = l₀ at hd
          cases hd <;> cases hblocked
        · rw [Function.update_of_ne hip] at hblocked
          rcases hi.waking i heat hblocked with ⟨q, hq⟩ | hpos
          · have hact : s.active q = true := by
              rw [hi.mtp.token.active]
              exact holds_of_aims hq
            rw [hi.mtp.token.val_zero hact rfl] at hval
            omega
          · have hx : x = .cond i := hi.mtp.token.val_unique rfl rfl hval hpos
            subst hx
            have hfits := hi.fits p
            generalize s.pc p = l₀ at hd hfits
            cases hd
            exact hip hfits.1
  | block x l hinstr hval pc val asleep active mem =>
      have hcalled : ∀ i, Called s' i ↔ Called s i := by
        intro i
        unfold Called
        rw [pc, val]
      refine ⟨hi', ?_, ?_, ?_, ?_⟩
      · rw [mem, pc]
        exact hi.table
      · rw [mem, pc]
        exact hi.fits
      · intro i
        rw [hcalled, mem]
        exact hi.called i
      · intro i
        rw [hcalled, mem, pc]
        exact hi.waking i
  -- The token goes onto the semaphore `x`. A signaller that left a unit on the condition variable
  -- of `i` was the one who called `i`, so the calls are the same, with the unit in the place of the
  -- signaller.
  | release x l hinstr hnone pc val asleep active mem =>
      have hup := up_cases hinstr
      have hp : s.active p = true := by
        rw [hi.mtp.token.active]
        exact holds_of_serves (serves_up hup)
      have hone : s'.val x = 1 := by
        rw [val, Function.update_self, hi.mtp.token.val_zero hp rfl]
        rfl
      have hcalled : ∀ i, Called s' i ↔ Called s i := by
        intro i
        rw [hi.called_iff hp, (aims_up hup (hi.fits p) i).1]
        constructor
        · rintro (⟨q, hq⟩ | hpos)
          · have hact : s'.active q = true := by
              rw [hi'.token.active]
              exact holds_of_aims hq
            rw [hi'.token.val_zero hact rfl] at hone
            cases hone
          · exact hi'.token.val_unique rfl rfl (by omega) hpos
        · rintro rfl
          exact .inr (by omega)
      refine ⟨hi', ?_, ?_, ?_, fun i heat hblocked => ?_⟩
      · rw [mem, pc, comp_update_same (condvarRole_up hup (hi.fits p))]
        exact hi.table
      · rw [mem, pc]
        exact condvarFits_update hi.fits (fits_of_up hup (hi.fits p))
      · intro i
        rw [hcalled, mem]
        exact hi.called i
      · rw [hcalled]
        rw [mem] at heat
        rw [pc] at hblocked
        by_cases hip : i = p
        · subst hip
          rw [Function.update_self, not_blocked_up hup (hi.fits i) heat] at hblocked
          cases hblocked
        · rw [Function.update_of_ne hip] at hblocked
          exact hi.waking i heat hblocked
  | handOff x l q l' hinstr hne hasleep hq hval pc val asleep active mem =>
      refine hi.step_handOff hi' (up_cases hinstr) (down_cases hq) hne pc ?_ mem
      rw [active, Function.update_self]
      exact Bool.or_true _
  | exec f hinstr pc val asleep active mem =>
      have hexec := exec_cases hinstr s.mem
      have hp := hi.active_of_exec hexec
      have hp' : s'.active p = true := by
        rw [active]
        exact hp
      have hfits := hi.execFits hexec
      -- While `p` has the token there is no unit anywhere, so that all calls are by `p`.
      have hcalled : ∀ i, Called s' i ↔ aims p (f s.mem).1 = some i := by
        intro i
        constructor
        · rintro (⟨q, hq⟩ | hpos)
          · have hact : s'.active q = true := by
              rw [hi'.token.active]
              exact holds_of_aims hq
            have hqp := hi'.token.unique hact hp'
            subst hqp
            rw [pc, Function.update_self] at hq
            exact hq
          · rw [hi'.token.val_zero hp' rfl] at hpos
            omega
        · intro hq
          refine .inl ⟨p, ?_⟩
          rw [pc, Function.update_self]
          exact hq
      refine ⟨hi', ?_, fun q => ?_, fun i hc => ?_, fun i heat hblocked => ?_⟩
      · rw [mem, pc, Function.comp_update]
        exact hi.table.step hn (fun q w => hi.granting_only hp) hfits.table
      · rw [mem, pc]
        by_cases hq : q = p
        · subst hq
          rw [Function.update_self]
          exact hfits.fits
        · rw [Function.update_of_ne hq]
          rcases hfits.other q hq with hsame | ⟨hhungry, heat⟩
          -- The state of another philosopher changes in one way only, from hungry to eating, and then
          -- its owner is asleep in the monitor.
          · rw [hsame]
            exact hi.fits q
          · have hout : holds (phiCondvar n) q (s.pc q) = false := by
              rw [← hi.mtp.token.active, Bool.eq_false_iff]
              exact fun hact => hq (hi.mtp.token.unique hact hp)
            have hq' := hi.fits q
            rw [hhungry] at hq'
            obtain ⟨k, hk⟩ := blocked_of_hungry hq' hout
            rw [hk] at hq' ⊢
            rw [heat]
            exact ⟨hq'.1, hq'.2.1, by decide⟩
      · rw [mem]
        exact hfits.called i ((hcalled i).mp hc)
      · rw [mem] at heat
        rw [hcalled]
        refine hfits.waking i heat ?_
        rw [pc] at hblocked
        by_cases hip : i = p
        · subst hip
          rw [Function.update_self, (exec_still hexec).2 i] at hblocked
          exact hblocked
        · rw [Function.update_of_ne hip] at hblocked
          exact hblocked
  | choose R l hinstr hl pc val asleep active mem =>
      obtain ⟨k, Q, -, hcall, -⟩ := choose_cases hinstr
      cases k <;> cases hcall

/-! ### Runs -/

/-- The invariant holds at the start. -/
theorem condvarInv_init (n : Nat) : CondvarInv (phiCondvar_init n) := by
  refine ⟨monitorInv_init _ _ fun _ => rfl, ⟨?_, ?_, ?_⟩, fun _ => rfl, ?_, ?_⟩
  · intro i hi
    cases hi
  · intro q w hq
    cases hq
  · intro i hi
    cases hi
  · rintro i (⟨q, hq⟩ | hval)
    · cases hq
    · cases hval
  · intro i hi
    cases hi

/-- The invariant holds in every state of a run. -/
theorem condvarInv_of_run (hn : 2 ≤ n)
    (h : Run (monitor (phiCondvar n)) (phiCondvar_init n) s) : CondvarInv s :=
  Run.invariant (monitor (phiCondvar n)) (fun _ _ _ hi hst => hi.step hn hst) (condvarInv_init n) h

/-- With nobody active and no signaller suspended the roles are quiet. -/
theorem CondvarInv.quiet (hi : CondvarInv s) (hidle : ∀ p, s.active p = false)
    (hsus : ∀ p, (s.pc p).suspended = false) (p : Fin n) :
    (condvarRole ∘ s.pc) p = .quiet := by
  have hout := hidle p
  rw [hi.mtp.token.active] at hout
  have hp := hsus p
  show condvarRole (s.pc p) = .quiet
  generalize s.pc p = l at hout hp
  cases l with
  | client k =>
      cases k with
      | think | eat => rfl
      | _ => cases hout
  | signalDown cv k => cases hp
  | waitDown cv k => rfl
  | _ => cases hout

/-- With nobody active and no signaller suspended, who is blocked on its condition variable
is hungry. -/
theorem CondvarInv.hungry_of_blocked (hi : CondvarInv s) (hidle : ∀ p, s.active p = false)
    (hsus : ∀ p, (s.pc p).suspended = false) {i cv : Fin n}
    (hblocked : (s.pc i).blocked cv = true) : s.mem.data i = .hungry := by
  have hfits := hi.fits i
  have hown : (s.pc i).blocked i = true ∧ s.mem.data i ≠ .thinking := by
    generalize s.pc i = l at hblocked hfits
    cases l with
    | waitDown cv' k =>
        obtain ⟨rfl, -, hc⟩ := hfits
        exact ⟨decide_eq_true rfl, hc⟩
    | _ => cases hblocked
  have hnot : s.mem.data i ≠ .eating := by
    intro heat
    rcases hi.waking i heat hown.1 with ⟨q, hq⟩ | hval
    · have hact := hi.mtp.token.active q
      rw [hidle q, holds_of_aims hq] at hact
      cases hact
    · obtain ⟨q, hq⟩ := hi.mtp.signalled i hval
      rw [hsus q] at hq
      cases hq
  cases hc : s.mem.data i with
  | hungry => rfl
  | thinking => exact absurd hc hown.2
  | eating => exact absurd hc hnot

/-- The philosophers of `check_sync.c` in a ring of any size, with semaphores and with a
monitor, in every state of every run. No two neighbours eat. A philosopher that has come
back from taking its forks, and has not begun to put them back, eats. When nobody is in the
critical section, every hungry philosopher has a neighbour that eats, and so has everybody
who is blocked on its semaphore or its condition variable. -/
theorem philosophers_safe (n : Nat) (hn : 2 ≤ n) :
    (∀ s, Run (phiSema n) (phiSema_init n) s →
      (∀ i, s.mem i = .eating → s.mem (left i) ≠ .eating ∧ s.mem (right i) ≠ .eating) ∧
      (∀ i, s.pc i = .eat → s.mem i = .eating) ∧
      ((∀ p, s.active p = false) →
        (∀ i, s.mem i = .hungry → s.mem (left i) = .eating ∨ s.mem (right i) = .eating) ∧
        ∀ i, s.pc i = .takeDown → s.asleep i = true →
          s.mem (left i) = .eating ∨ s.mem (right i) = .eating)) ∧
    (∀ s, Run (monitor (phiCondvar n)) (phiCondvar_init n) s →
      (∀ i, s.mem.data i = .eating →
        s.mem.data (left i) ≠ .eating ∧ s.mem.data (right i) ≠ .eating) ∧
      (∀ i, s.pc i = .client .eat → s.mem.data i = .eating) ∧
      ((∀ p, s.active p = false) → (∀ p, (s.pc p).suspended = false) →
        (∀ i, s.mem.data i = .hungry →
          s.mem.data (left i) = .eating ∨ s.mem.data (right i) = .eating) ∧
        ∀ i cv, (s.pc i).blocked cv = true →
          s.mem.data (left i) = .eating ∨ s.mem.data (right i) = .eating)) := by
  constructor
  · intro s hrun
    have hi := semaInv_of_run hn hrun
    refine ⟨hi.table.apart, fun i hpc => ?_, fun hidle => ?_⟩
    · have hfits := hi.fits i
      rw [hpc] at hfits
      exact hfits
    · have hquiet := hi.table.quiet (hi.quiet hidle)
      exact ⟨hquiet, fun i hpc hasleep => hquiet i (hi.hungry_of_asleep hidle hasleep hpc)⟩
  · intro s hrun
    have hi := condvarInv_of_run hn hrun
    refine ⟨hi.table.apart, fun i hpc => ?_, fun hidle hsus => ?_⟩
    · have hfits := hi.fits i
      rw [hpc] at hfits
      exact hfits
    · have hquiet := hi.table.quiet (hi.quiet hidle hsus)
      exact ⟨hquiet, fun i cv hblocked => hquiet i (hi.hungry_of_blocked hidle hsus hblocked)⟩

/-- Five philosophers, with semaphores and with a monitor: the first one has its forks, and the second
one sleeps. -/
theorem second_philosopher_waits :
    (∃ s, Run (phiSema 5) (phiSema_init 5) s ∧ s.asleep 1 = true ∧ s.mem 0 = .eating ∧
      (s.mem (left 1) = .eating ∨ s.mem (right 1) = .eating)) ∧
    ∃ s, Run (monitor (phiCondvar 5)) (phiCondvar_init 5) s ∧ s.asleep 1 = true ∧
      (s.pc 1).blocked 1 = true ∧ s.mem.data 0 = .eating ∧
      (s.mem.data (left 1) = .eating ∨ s.mem.data (right 1) = .eating) := by
  constructor
  · obtain ⟨s, hs⟩ : ∃ s, (phiSema_init 5).schedule (phiSema 5)
        [0, 0, 0, 0, 0, 0, 0, 1, 1, 1, 1, 1] = some s := ⟨_, rfl⟩
    have hrun := run_of_schedule (phiSema 5) .refl hs
    have hpc : s.pc 0 = .eat ∧ s.pc 1 = .takeDown ∧ s.asleep 1 = true := by
      cases hs
      exact ⟨rfl, rfl, rfl⟩
    have hidle : ∀ p, s.active p = false := by
      cases hs
      decide
    obtain ⟨-, heat, hwait⟩ := (philosophers_safe 5 (by decide)).1 s hrun
    exact ⟨s, hrun, hpc.2.2, heat 0 hpc.1, (hwait hidle).2 1 hpc.2.1 hpc.2.2⟩
  · obtain ⟨s, hs⟩ : ∃ s, (phiCondvar_init 5).schedule (monitor (phiCondvar 5))
        [0, 0, 0, 0, 0, 0, 0, 0, 1, 1, 1, 1, 1, 1, 1, 1] = some s := ⟨_, rfl⟩
    have hrun := run_of_schedule (monitor (phiCondvar 5)) .refl hs
    have hpc : s.pc 0 = .client .eat ∧ (s.pc 1).blocked 1 = true ∧ s.asleep 1 = true := by
      cases hs
      exact ⟨rfl, rfl, rfl⟩
    have hidle : ∀ p, s.active p = false := by
      cases hs
      decide
    have hsus : ∀ p, (s.pc p).suspended = false := by
      cases hs
      decide
    obtain ⟨-, heat, hwait⟩ := (philosophers_safe 5 (by decide)).2 s hrun
    exact ⟨s, hrun, hpc.2.2, hpc.2.1, heat 0 hpc.1, (hwait hidle hsus).2 1 1 hpc.2.1⟩

end Ucore.Proofs.Sync
