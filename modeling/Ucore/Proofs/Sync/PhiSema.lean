import Ucore.Proofs.Sync.Table
import Mathlib

/-!
# `Ucore.Proofs.Sync.PhiSema`: the philosophers with semaphores

Every step of `phiSema` is a step of the table, through the roles of the labels (`role`).
`SemaInv` adds what the labels say about the philosopher's own state, and the account of the private
semaphores: the units of `s[i]` and the philosophers about to go up on it are one when `i` eats and
has not come back from its down yet, and none otherwise.

A philosopher changes the states between `down(&mutex)` and `up(&mutex)`, so one does at a time
(`phiSema_bracketed`). A test that passes makes the philosopher eat and then gives it a unit, which
are two steps. `granters` counts those between the two, and `SemaInv.credit_step` keeps the sum of
value and granters equal to what is owed (`owed`): nothing is lost when the test comes before the
philosopher has gone down, since its semaphore keeps the unit.

The step lemma is in four parts, one for each field of the invariant that a step may touch: the
table (`SemaInv.table_step`), the labels (`SemaInv.fits_step`), the account (`SemaInv.credit_step`)
and the token, from `Ucore.Lib.Semaphore`.
-/

set_option autoImplicit false

namespace Ucore.Proofs.Sync

open Ucore.Lib
open Ucore.Sync

namespace SemaLabel

/-- The philosopher is in the critical section. -/
def holds : SemaLabel → Bool
  | .think | .takeDown | .eat => false
  | _ => true

/-- The role of a philosopher at the table. -/
def role : SemaLabel → Role
  | .test w => .testing w
  | .setEating w => .granting w
  | .upS w => .after w
  | _ => .quiet

/-- What the label says about the state of the philosopher. -/
def fits : SemaLabel → PhiState → Prop
  | .think, c | .setHungry, c => c = .thinking
  | .test .own, c | .setEating .own, c => c = .hungry
  | .upS .own, c => c = .eating
  | .takeUp, c | .takeDown, c => c ≠ .thinking
  | .eat, c | .setThinking, c => c = .eating
  | .test _, c | .setEating _, c | .upS _, c | .putUp, c => c = .thinking

/-- The philosopher has not come back from the down on its semaphore. -/
def awaits : SemaLabel → Bool
  | .upS .own | .takeUp | .takeDown => true
  | _ => false

/-- The philosopher `p` is about to go up on the semaphore of `i`. -/
def grants {n : Nat} (p i : Fin n) : SemaLabel → Bool
  | .upS w => decide (w.of p = i)
  | _ => false

end SemaLabel

variable {n : Nat} {p : Fin n}

/-- A philosopher holds `mutex` between its `down` and its `up`. -/
theorem phiSema_bracketed (n : Nat) :
    Bracketed (phiSema n) (fun _ _ => True) (fun _ => SemaLabel.holds) where
  down p l x l' _ h := by
    refine ⟨trivial, ?_⟩
    cases l <;> cases h <;> simp [phiSema, SemaLabel.holds]
  up p l x l' _ h := by
    refine ⟨trivial, ?_⟩
    cases l with
    | upS w =>
        cases h
        cases w <;> rfl
    | _ => cases h <;> simp [phiSema, SemaLabel.holds]
  exec p l f _ h m := by
    refine ⟨trivial, ?_⟩
    cases l with
    | test w =>
        cases h
        dsimp only
        split
        · rfl
        · cases w <;> rfl
    | _ => cases h <;> rfl
  choose p l R _ h l' hl' := by
    cases l <;> cases h

/-- The philosophers at any time. -/
structure SemaInv (s : Conf (Fin n) (SemaSem n) SemaLabel (Fin n → PhiState)) : Prop where
  token : TokenInv (phiSema n) (fun _ _ => True) (fun _ => SemaLabel.holds) s
  table : TableInv s.mem (SemaLabel.role ∘ s.pc)
  fits : ∀ p, SemaLabel.fits (s.pc p) (s.mem p)
  credit : ∀ i, s.val (.s i) + (∑ p, if SemaLabel.grants p i (s.pc p) then 1 else 0) =
    if s.mem i = .eating ∧ SemaLabel.awaits (s.pc i) = true then 1 else 0

/-! ### The steps -/

/-- A `down` does not change what a philosopher is about. -/
theorem role_down {l l' : SemaLabel} {x : SemaSem n} (h : (phiSema n).instr p l = .down x l') :
    SemaLabel.role l' = SemaLabel.role l := by
  cases l <;> cases h <;> rfl

/-- An `up` does not change what a philosopher is about. -/
theorem role_up {l l' : SemaLabel} {x : SemaSem n} (h : (phiSema n).instr p l = .up x l') :
    SemaLabel.role l' = SemaLabel.role l := by
  cases l with
  | upS w =>
      cases h
      cases w <;> rfl
  | _ => cases h <;> rfl

/-- An instruction on the states is a step of the table. -/
theorem phiSema_tableStep {l : SemaLabel} {f : (Fin n → PhiState) → SemaLabel × (Fin n → PhiState)}
    (h : (phiSema n).instr p l = .exec f) {state : Fin n → PhiState} {roles : Fin n → Role}
    (hfits : SemaLabel.fits l (state p)) (hrole : roles p = SemaLabel.role l) :
    TableStep p state roles (f state).2
      (Function.update roles p (SemaLabel.role (f state).1)) := by
  cases l with
  | setHungry =>
      cases h
      exact .hungry hfits hrole
  | test w =>
      cases h
      dsimp only
      split
      · rename_i hmay
        exact .pass w hrole hmay
      · rename_i hmay
        have hafter : SemaLabel.role (.after w) = .after w := by cases w <;> rfl
        rw [hafter]
        exact .fail w hrole (by simpa using hmay)
  | setEating w =>
      cases h
      exact .grant w hrole
  | setThinking =>
      cases h
      exact .think hfits hrole
  | _ => cases h

variable {s s' : Conf (Fin n) (SemaSem n) SemaLabel (Fin n → PhiState)}

/-- A label that fits changes nothing for the others. -/
theorem fits_update {pc : Fin n → SemaLabel} {state : Fin n → PhiState} {l : SemaLabel}
    (h : ∀ q, SemaLabel.fits (pc q) (state q)) (hl : SemaLabel.fits l (state p)) (q : Fin n) :
    SemaLabel.fits (Function.update pc p l q) (state q) := by
  by_cases hq : q = p
  · subst hq
    rw [Function.update_self]
    exact hl
  · rw [Function.update_of_ne hq]
    exact h q

/-- Who is given a unit of its semaphore eats. -/
theorem SemaInv.eating (hi : SemaInv s) {i : Fin n}
    (h : 0 < s.val (.s i) ∨ ∃ q, SemaLabel.grants q i (s.pc q) = true) :
    s.mem i = .eating ∧ SemaLabel.awaits (s.pc i) = true := by
  have hcredit := hi.credit i
  have hval := hi.token.queued.nonneg (.s i)
  have hsum : (0 : Int) ≤ ∑ p, if SemaLabel.grants p i (s.pc p) then 1 else 0 :=
    Finset.sum_nonneg fun q _ => by split <;> decide
  rw [← sum_pos_iff] at h
  by_contra hnot
  rw [if_neg hnot] at hcredit
  omega

/-- The label behind a granted down fits. -/
theorem SemaInv.fits_down (hi : SemaInv s) {l : SemaLabel} {x : SemaSem n}
    (h : (phiSema n).instr p (s.pc p) = .down x l)
    (hx : ∀ i, x = .s i → 0 < s.val (.s i) ∨ ∃ q, SemaLabel.grants q i (s.pc q) = true) :
    SemaLabel.fits l (s.mem p) := by
  have hfits := hi.fits p
  generalize s.pc p = l₀ at h hfits
  cases l₀ with
  | think =>
      cases h
      exact hfits
  | takeDown =>
      cases h
      exact (hi.eating (hx p rfl)).1
  | eat =>
      cases h
      exact hfits
  | _ => cases h

/-- The label behind an up fits. -/
theorem fits_up {l l' : SemaLabel} {x : SemaSem n} {c : PhiState}
    (h : (phiSema n).instr p l = .up x l') (hfits : SemaLabel.fits l c) :
    SemaLabel.fits l' c := by
  cases l with
  | upS w =>
      cases h
      cases w with
      | own =>
          have hc : c = .eating := hfits
          rw [hc]
          exact fun heq => by cases heq
      | _ => exact hfits
  | takeUp =>
      cases h
      exact hfits
  | putUp =>
      cases h
      exact hfits
  | _ => cases h

/-- A philosopher that is hungry outside the critical section is at its semaphore. -/
theorem SemaInv.takeDown_of_hungry (hi : SemaInv s) {q : Fin n} (hp : s.active p = true)
    (hne : q ≠ p) (hhungry : s.mem q = .hungry) : s.pc q = .takeDown := by
  have hout : SemaLabel.holds (s.pc q) = false := by
    have hact := hi.token.active q
    rw [← hact, Bool.eq_false_iff]
    exact fun hq => hne (hi.token.unique hq hp)
  have hfits := hi.fits q
  rw [hhungry] at hfits
  generalize s.pc q = l at hout hfits
  cases l with
  | takeDown => rfl
  | think | eat => cases hfits
  | _ => cases hout

/-- Who holds a passed test is the active philosopher. -/
theorem SemaInv.granting_only (hi : SemaInv s) (hp : s.active p = true) {q : Fin n} {w : Seat}
    (hq : (SemaLabel.role ∘ s.pc) q = .granting w) : q = p := by
  refine hi.token.unique ?_ hp
  rw [hi.token.active]
  change SemaLabel.role (s.pc q) = _ at hq
  generalize s.pc q = l at hq
  cases l with
  | setEating w' => rfl
  | upS w' => exact absurd hq (Role.after_ne w' w)
  | _ => cases hq

/-- An instruction on the states is inside the critical section. -/
theorem SemaInv.active_of_exec (hi : SemaInv s)
    {f : (Fin n → PhiState) → SemaLabel × (Fin n → PhiState)}
    (h : (phiSema n).instr p (s.pc p) = .exec f) : s.active p = true := by
  rw [hi.token.active]
  generalize s.pc p = l at h
  cases l <;> cases h <;> rfl

/-- A view of the labels that the label `l` does not change. -/
theorem comp_update_same {α β γ : Type} [DecidableEq α] {f : β → γ} {g : α → β} {a : α} {b : β}
    (h : f b = f (g a)) : f ∘ Function.update g a b = f ∘ g := by
  rw [Function.comp_update, h]
  exact Function.update_eq_self a (f ∘ g)

/-- A step keeps the invariant of the table. -/
theorem SemaInv.table_step (hn : 2 ≤ n) (hi : SemaInv s) (h : Step (phiSema n) p s s') :
    TableInv s'.mem (SemaLabel.role ∘ s'.pc) := by
  cases h.effect hi.token.queued with
  | grant x l hinstr hval pc val asleep active mem =>
      rw [mem, pc, comp_update_same (role_down hinstr)]
      exact hi.table
  | block x l hinstr hval pc val asleep active mem =>
      rw [mem, pc]
      exact hi.table
  | release x l hinstr hnone pc val asleep active mem =>
      rw [mem, pc, comp_update_same (role_up hinstr)]
      exact hi.table
  | handOff x l q l' hinstr hne hasleep hq hval pc val asleep active mem =>
      rw [mem, pc, comp_update_same, comp_update_same (role_up hinstr)]
      · exact hi.table
      · rw [Function.update_of_ne hne]
        exact role_down hq
  | exec f hinstr pc val asleep active mem =>
      rw [mem, pc, Function.comp_update]
      exact hi.table.step hn (fun q w => hi.granting_only (hi.active_of_exec hinstr))
        (phiSema_tableStep hinstr (hi.fits p) rfl)
  | choose R l hinstr hl pc val asleep active mem =>
      generalize s.pc p = l₀ at hinstr
      cases l₀ <;> cases hinstr

/-- A step leaves each philosopher at a place that fits its state. -/
theorem SemaInv.fits_step (hi : SemaInv s) (h : Step (phiSema n) p s s') :
    ∀ q, SemaLabel.fits (s'.pc q) (s'.mem q) := by
  cases h.effect hi.token.queued with
  | grant x l hinstr hval pc val asleep active mem =>
      rw [mem, pc]
      refine fits_update hi.fits (hi.fits_down hinstr ?_)
      rintro i rfl
      exact .inl hval
  | block x l hinstr hval pc val asleep active mem =>
      rw [mem, pc]
      exact hi.fits
  | release x l hinstr hnone pc val asleep active mem =>
      rw [mem, pc]
      exact fits_update hi.fits (fits_up hinstr (hi.fits p))
  | handOff x l q l' hinstr hne hasleep hq hval pc val asleep active mem =>
      rw [mem, pc]
      refine fits_update (fits_update hi.fits (fits_up hinstr (hi.fits p)))
        (hi.fits_down hq ?_)
      rintro i rfl
      refine .inr ⟨p, ?_⟩
      generalize s.pc p = l₀ at hinstr
      cases l₀ with
      | upS w =>
          cases hinstr
          exact decide_eq_true rfl
      | _ => cases hinstr
  | exec f hinstr pc val asleep active mem =>
      have hp := hi.active_of_exec hinstr
      have hfits := hi.fits p
      have hgrant : ∀ w, s.pc p = .setEating w → s.mem (w.of p) = .hungry := by
        intro w hw
        have hmay := hi.table.granting p w (by
          show SemaLabel.role (s.pc p) = _
          rw [hw]
          rfl)
        exact (mayEat_iff.mp hmay).1
      rw [mem, pc]
      generalize hl : s.pc p = l at hinstr hfits hgrant
      -- A state that changes belongs to `p` or, by a grant, to a hungry neighbour.
      have hself : ∀ (l' : SemaLabel) (c : PhiState), SemaLabel.fits l' c → ∀ q,
          SemaLabel.fits (Function.update s.pc p l' q) (Function.update s.mem p c q) := by
        intro l' c hc q
        by_cases hq : q = p
        · subst hq
          rw [Function.update_self, Function.update_self]
          exact hc
        · rw [Function.update_of_ne hq, Function.update_of_ne hq]
          exact hi.fits q
      have hother : ∀ (l' : SemaLabel) (t : Fin n), s.mem p = .thinking → s.mem t = .hungry →
          SemaLabel.fits l' .thinking → ∀ q,
            SemaLabel.fits (Function.update s.pc p l' q) (Function.update s.mem t .eating q) := by
        intro l' t hc hhungry hl' q
        by_cases hq : q = p
        · subst hq
          rw [Function.update_self, Function.update_of_ne, hc]
          · exact hl'
          · rintro heq
            rw [← heq, hc] at hhungry
            cases hhungry
        · rw [Function.update_of_ne hq]
          by_cases hqt : q = t
          · subst hqt
            rw [Function.update_self, hi.takeDown_of_hungry hp hq hhungry]
            exact fun heq => by cases heq
          · rw [Function.update_of_ne hqt]
            exact hi.fits q
      cases l with
      | setHungry =>
          cases hinstr
          exact hself _ _ rfl
      | test w =>
          cases hinstr
          apply fits_update hi.fits
          dsimp only
          split
          · cases w <;> exact hfits
          · cases w with
            | own =>
                have hc : s.mem p = .hungry := hfits
                rw [hc]
                exact fun heq => by cases heq
            | _ => exact hfits
      | setEating w =>
          cases hinstr
          dsimp only
          have hhungry := hgrant w rfl
          cases w with
          | own => exact hself _ _ rfl
          | left => exact hother _ _ hfits hhungry rfl
          | right => exact hother _ _ hfits hhungry rfl
      | setThinking =>
          cases hinstr
          exact hself _ _ rfl
      | _ => cases hinstr
  | choose R l hinstr hl pc val asleep active mem =>
      generalize s.pc p = l₀ at hinstr
      cases l₀ <;> cases hinstr

/-! ### The private semaphores -/

/-- What is owed to the philosopher `i`. -/
def owed (state : Fin n → PhiState) (pc : Fin n → SemaLabel) (i : Fin n) : Int :=
  if state i = .eating ∧ SemaLabel.awaits (pc i) = true then 1 else 0

/-- The philosophers about to go up on the semaphore of `i`. -/
def granters (pc : Fin n → SemaLabel) (i : Fin n) : Int :=
  ∑ p, if SemaLabel.grants p i (pc p) then 1 else 0

/-- A step of one philosopher that waits for the same leaves what is owed. -/
theorem owed_update (state : Fin n → PhiState) (pc : Fin n → SemaLabel) {l : SemaLabel}
    (h : SemaLabel.awaits l = SemaLabel.awaits (pc p)) (i : Fin n) :
    owed state (Function.update pc p l) i = owed state pc i := by
  unfold owed
  by_cases hi : i = p
  · subst hi
    rw [Function.update_self, h]
  · rw [Function.update_of_ne hi]

/-- How one step changes the number of philosophers that are about to grant a unit. -/
theorem granters_update (pc : Fin n → SemaLabel) (l : SemaLabel) (i : Fin n) :
    granters (Function.update pc p l) i = granters pc i -
      (if SemaLabel.grants p i (pc p) then 1 else 0) + (if SemaLabel.grants p i l then 1 else 0) :=
  sum_update (fun q (l : SemaLabel) => if SemaLabel.grants q i l then (1 : Int) else 0) pc p l

/-- An `up` does not change what a philosopher waits for. -/
theorem awaits_up {l l' : SemaLabel} {x : SemaSem n} (h : (phiSema n).instr p l = .up x l') :
    SemaLabel.awaits l' = SemaLabel.awaits l := by
  cases l with
  | upS w =>
      cases h
      cases w <;> rfl
  | _ => cases h <;> rfl

/-- A philosopher about to go up is at `upS`. -/
theorem grants_up {l l' : SemaLabel} {x : SemaSem n} (h : (phiSema n).instr p l = .up x l')
    (i : Fin n) : SemaLabel.grants p i l = decide (x = .s i) ∧ SemaLabel.grants p i l' = false := by
  cases l with
  | upS w =>
      cases h
      refine ⟨?_, by cases w <;> rfl⟩
      simp [SemaLabel.grants]
  | takeUp =>
      cases h
      exact ⟨rfl, rfl⟩
  | putUp =>
      cases h
      exact ⟨rfl, rfl⟩
  | _ => cases h

/-- No unit is granted around a `down`. -/
theorem grants_down {l l' : SemaLabel} {x : SemaSem n} (h : (phiSema n).instr p l = .down x l')
    (i : Fin n) : SemaLabel.grants p i l = false ∧ SemaLabel.grants p i l' = false := by
  cases l <;> cases h <;> exact ⟨rfl, rfl⟩

/-- The label behind a down does not wait, and the label before it only on `s[i]`. -/
theorem awaits_down {l l' : SemaLabel} {x : SemaSem n}
    (h : (phiSema n).instr p l = .down x l') :
    SemaLabel.awaits l' = false ∧ SemaLabel.awaits l = decide (x = .s p) := by
  cases l with
  | think =>
      cases h
      exact ⟨rfl, rfl⟩
  | takeDown =>
      cases h
      exact ⟨rfl, (decide_eq_true rfl).symm⟩
  | eat =>
      cases h
      exact ⟨rfl, rfl⟩
  | _ => cases h

/-- A philosopher that comes back from its down is owed nothing more. -/
theorem owed_down {state : Fin n → PhiState} {pc : Fin n → SemaLabel} {l : SemaLabel}
    {x : SemaSem n} (h : (phiSema n).instr p (pc p) = .down x l) (i : Fin n) :
    owed state (Function.update pc p l) i =
      owed state pc i - if x = .s i ∧ i = p then owed state pc i else 0 := by
  obtain ⟨hnew, hold⟩ := awaits_down h
  by_cases hi : i = p
  · subst hi
    by_cases hx : x = .s i
    · rw [if_pos ⟨hx, rfl⟩]
      simp [owed, hnew]
    · rw [if_neg (fun hx' => hx hx'.1)]
      simp [owed, hnew, hold, hx]
  · rw [if_neg (fun hx' => hi hx'.2)]
    simp [owed, hi]

/-- A philosopher waits at its own semaphore only. -/
theorem down_own {l l' : SemaLabel} {i : Fin n} (h : (phiSema n).instr p l = .down (.s i) l') :
    i = p := by
  cases l <;> cases h
  rfl

/-- A philosopher to whom nothing is owed, before a step and after it. -/
theorem owed_keep {state state' : Fin n → PhiState} {pc : Fin n → SemaLabel} {l : SemaLabel}
    (hother : ∀ q, q ≠ p → state' q = state q)
    (hold : ¬ (state p = .eating ∧ SemaLabel.awaits (pc p) = true))
    (hnew : ¬ (state' p = .eating ∧ SemaLabel.awaits l = true)) (i : Fin n) :
    owed state' (Function.update pc p l) i = owed state pc i := by
  unfold owed
  by_cases hi : i = p
  · subst hi
    rw [Function.update_self, if_neg hold, if_neg hnew]
  · rw [Function.update_of_ne hi, hother i hi]

/-- What is owed to the philosopher that takes the forks, by its own test or by a
neighbour's. -/
theorem SemaInv.owed_grant (hi : SemaInv s) (hp : s.active p = true) {w : Seat}
    (hl : s.pc p = .setEating w) (hhungry : s.mem (w.of p) = .hungry) (i : Fin n) :
    owed (Function.update s.mem (w.of p) .eating) (Function.update s.pc p (.upS w)) i =
      owed s.mem s.pc i + if w.of p = i then 1 else 0 := by
  have hfits := hi.fits p
  rw [hl] at hfits
  generalize ht : w.of p = t at hhungry
  have hzero : owed s.mem s.pc t = 0 := by
    refine if_neg fun h => ?_
    rw [hhungry] at h
    cases h.1
  by_cases hti : t = i
  · subst hti
    rw [if_pos rfl, hzero]
    refine if_pos ⟨Function.update_self .., ?_⟩
    by_cases htp : t = p
    · rw [htp, Function.update_self]
      cases w with
      | own => rfl
      | left | right =>
          have hc : s.mem p = .thinking := hfits
          rw [htp, hc] at hhungry
          cases hhungry
    · rw [Function.update_of_ne htp, hi.takeDown_of_hungry hp htp hhungry]
      rfl
  · rw [if_neg hti, add_zero]
    unfold owed
    rw [Function.update_of_ne (Ne.symm hti)]
    by_cases hip : i = p
    · subst hip
      rw [Function.update_self, hl]
      cases w with
      | own => exact absurd ht (Ne.symm hti)
      | left | right => rfl
    · rw [Function.update_of_ne hip]

/-- A step keeps the account of each semaphore: its value and the units on their way are what is
owed. -/
theorem SemaInv.credit_step (hi : SemaInv s) (h : Step (phiSema n) p s s') (i : Fin n) :
    s'.val (.s i) + granters s'.pc i = owed s'.mem s'.pc i := by
  -- The equation: a unit on the semaphore of `i`, or a granter on its way to the up, is there if
  -- and only if `i` eats and has not come through its down.
  have hcredit : s.val (.s i) + granters s.pc i = owed s.mem s.pc i := hi.credit i
  cases h.effect hi.token.queued with
  | grant x l hinstr hval pc val asleep active mem =>
      obtain ⟨hg, hg'⟩ := grants_down hinstr i
      rw [mem, pc, val, granters_update, hg, hg', owed_down hinstr]
      by_cases hx : x = .s i
      · subst hx
        have hip := down_own hinstr
        have howed : owed s.mem s.pc i = 1 := if_pos (hi.eating (.inl hval))
        simp only [Function.update_self, Bool.false_eq_true, if_false, true_and, if_pos hip]
        omega
      · simp only [Function.update_of_ne (Ne.symm hx), Bool.false_eq_true, if_false, hx,
          false_and]
        omega
  | block x l hinstr hval pc val asleep active mem =>
      rw [mem, pc, val]
      exact hcredit
  | release x l hinstr hnone pc val asleep active mem =>
      obtain ⟨hg, hg'⟩ := grants_up hinstr i
      rw [mem, pc, val, granters_update, hg, hg', owed_update _ _ (awaits_up hinstr)]
      by_cases hx : x = .s i
      · subst hx
        rw [Function.update_self]
        simp only [decide_true, Bool.false_eq_true, if_true, if_false]
        omega
      · rw [Function.update_of_ne (Ne.symm hx)]
        simp only [hx, decide_false, Bool.false_eq_true, if_false]
        omega
  | handOff x l q l' hinstr hne hasleep hq hval pc val asleep active mem =>
      obtain ⟨hg, hg'⟩ := grants_up hinstr i
      obtain ⟨hq₁, hq₂⟩ := grants_down hq i
      have hdown : (phiSema n).instr q (Function.update s.pc p l q) = .down x l' := by
        rw [Function.update_of_ne hne]
        exact hq
      rw [mem, pc, val, granters_update, granters_update, Function.update_of_ne hne, hg, hg', hq₁,
        hq₂, owed_down hdown, owed_update _ _ (awaits_up hinstr)]
      by_cases hx : x = .s i
      · subst hx
        have hiq := down_own hq
        have howed : owed s.mem s.pc i = 1 := if_pos (hi.eating (.inr ⟨p, by rw [hg]; simp⟩))
        simp only [decide_true, Bool.false_eq_true, if_true, if_false, true_and, if_pos hiq]
        omega
      · simp only [hx, decide_false, Bool.false_eq_true, if_false, false_and]
        omega
  | exec f hinstr pc val asleep active mem =>
      have hp := hi.active_of_exec hinstr
      have hfits := hi.fits p
      have hgrant : ∀ w, s.pc p = .setEating w → s.mem (w.of p) = .hungry := by
        intro w hw
        have hmay := hi.table.granting p w (by
          show SemaLabel.role (s.pc p) = _
          rw [hw]
          rfl)
        exact (mayEat_iff.mp hmay).1
      rw [mem, pc, val, granters_update]
      -- Nobody goes up, and nothing is owed to `p`.
      have hkeep : ∀ (state' : Fin n → PhiState) (l : SemaLabel),
          SemaLabel.grants p i (s.pc p) = false → SemaLabel.grants p i l = false →
          (∀ q, q ≠ p → state' q = s.mem q) →
          ¬ (s.mem p = .eating ∧ SemaLabel.awaits (s.pc p) = true) →
          ¬ (state' p = .eating ∧ SemaLabel.awaits l = true) →
          s.val (.s i) + (granters s.pc i - (if SemaLabel.grants p i (s.pc p) then 1 else 0) +
            (if SemaLabel.grants p i l then 1 else 0)) =
              owed state' (Function.update s.pc p l) i := by
        intro state' l hg hg' hother hold hnew
        rw [owed_keep hother hold hnew, hg, hg']
        simp only [Bool.false_eq_true, if_false]
        omega
      cases hl : s.pc p with
      | setHungry =>
          rw [hl] at hinstr hfits hkeep
          cases hinstr
          have hc : s.mem p = .thinking := hfits
          refine hkeep _ _ rfl rfl (fun q hq => Function.update_of_ne hq _ _) ?_ ?_
          · simp [hc]
          · simp
      | test w =>
          rw [hl] at hinstr hfits hkeep
          cases hinstr
          have hnot : ∀ b, ¬ (s.mem p = .eating ∧
              SemaLabel.awaits (if b = true then .setEating w else .after w) = true) := by
            intro b
            cases w with
            | own =>
                have hc : s.mem p = .hungry := hfits
                simp [hc]
            | left | right => cases b <;> simp [SemaLabel.awaits, SemaLabel.after]
          refine hkeep _ _ rfl ?_ (fun q hq => rfl) (fun h => by cases h.2) (hnot _)
          dsimp only
          split
          · rfl
          · cases w <;> rfl
      -- The grant: from here on a unit is owed to the philosopher, and `p` is on its way to give
      -- it.
      | setEating w =>
          have howed := hi.owed_grant hp hl (hgrant w hl) i
          rw [hl] at hinstr
          cases hinstr
          rw [howed]
          simp only [SemaLabel.grants, Bool.false_eq_true, if_false, decide_eq_true_eq]
          omega
      | setThinking =>
          rw [hl] at hinstr hfits hkeep
          cases hinstr
          refine hkeep _ _ rfl rfl (fun q hq => Function.update_of_ne hq _ _)
            (fun h => by cases h.2) ?_
          simp
      | _ =>
          rw [hl] at hinstr
          cases hinstr
  -- There is no free choice in this program.
  | choose R l hinstr hl pc val asleep active mem =>
      generalize s.pc p = l₀ at hinstr
      cases l₀ <;> cases hinstr

/-! ### Runs -/

/-- Every step of every philosopher keeps the invariant. -/
theorem SemaInv.step (hn : 2 ≤ n) (hi : SemaInv s) (h : Step (phiSema n) p s s') : SemaInv s' :=
  ⟨hi.token.step (phiSema_bracketed n) h, hi.table_step hn h, hi.fits_step h, hi.credit_step h⟩

/-- A sum over the semaphores. -/
theorem sum_semaSem (f : SemaSem n → Int) : ∑ x, f x = f .mutex + ∑ i, f (.s i) := by
  let e : Option (Fin n) ≃ SemaSem n :=
    { toFun := fun o => o.elim .mutex .s
      invFun := fun x => x.casesOn none some
      left_inv := fun o => by rcases o with _ | i <;> rfl
      right_inv := fun x => by cases x <;> rfl }
  rw [← Equiv.sum_comp e, Fintype.sum_option]
  rfl

/-- The invariant holds at the start. -/
theorem semaInv_init (n : Nat) : SemaInv (phiSema_init n) := by
  have hval : ∀ x, (phiSema_init n).val x = if x = .mutex then 1 else 0 := by
    intro x
    cases x <;> rfl
  have hqueue : ∀ x, ((phiSema_init n).sem x).queue = [] := by
    intro x
    cases x <;> rfl
  refine ⟨⟨⟨?_, ?_, ?_, ?_⟩, fun _ => trivial, fun _ => rfl, ?_⟩, ⟨?_, ?_, ?_⟩, fun _ => rfl, ?_⟩
  · intro x q
    rw [hqueue]
    simp [phiSema_init]
  · intro x
    rw [hqueue]
    exact List.nodup_nil
  · intro x
    rw [hval]
    split <;> decide
  · intro x _
    exact hqueue x
  · unfold tokens
    have hactive : ∀ p, (phiSema_init n).active p = false := fun _ => rfl
    simp only [sum_semaSem, hval, hactive]
    simp [phiSema]
  · intro i hi
    cases hi
  · intro q w hq
    cases hq
  · intro i hi
    cases hi
  · intro i
    rw [hval]
    simp [phiSema_init, SemaLabel.grants]

/-- The invariant holds in every state of a run. -/
theorem semaInv_of_run (hn : 2 ≤ n) (h : Run (phiSema n) (phiSema_init n) s) : SemaInv s :=
  Run.invariant (phiSema n) (fun _ _ _ hi hst => hi.step hn hst) (semaInv_init n) h

/-- With nobody in the critical section the roles are quiet. -/
theorem SemaInv.quiet (hi : SemaInv s) (hidle : ∀ p, s.active p = false) (p : Fin n) :
    (SemaLabel.role ∘ s.pc) p = .quiet := by
  have hout := hidle p
  rw [hi.token.active] at hout
  show SemaLabel.role (s.pc p) = .quiet
  generalize s.pc p = l at hout
  cases l with
  | think | takeDown | eat => rfl
  | _ => cases hout

/-- With nobody in the critical section, who sleeps on its semaphore is hungry. -/
theorem SemaInv.hungry_of_asleep (hi : SemaInv s) (hidle : ∀ p, s.active p = false) {i : Fin n}
    (hasleep : s.asleep i = true) (hpc : s.pc i = .takeDown) : s.mem i = .hungry := by
  have hmem : i ∈ (s.sem (.s i)).queue := by
    rw [hi.token.queued.mem_iff, hpc]
    exact ⟨hasleep, .eat, rfl⟩
  have hval : ¬ 0 < s.val (.s i) := by
    intro hpos
    rw [hi.token.queued.full _ hpos] at hmem
    cases hmem
  have hgranters : ¬ 0 < granters s.pc i := by
    unfold granters
    rw [sum_pos_iff]
    rintro ⟨p, hp⟩
    have hout := hidle p
    rw [hi.token.active] at hout
    generalize s.pc p = l at hp hout
    cases l with
    | upS w => cases hout
    | _ => cases hp
  have hcredit : s.val (.s i) + granters s.pc i = owed s.mem s.pc i := hi.credit i
  have hfits := hi.fits i
  rw [hpc] at hfits
  cases hc : s.mem i with
  | hungry => rfl
  | thinking => exact absurd hc hfits
  | eating =>
      have howed : owed s.mem s.pc i = 1 := if_pos ⟨hc, by rw [hpc]; rfl⟩
      omega

end Ucore.Proofs.Sync
