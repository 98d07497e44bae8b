import Ucore.Sync.CheckSync
import Mathlib

/-!
# `Ucore.Proofs.Sync.Table`: what the philosophers agree on

The table is what both protocols have in common: the states, and for each philosopher the tests that
it has yet to make. `TableStep` says how a philosopher in the critical section changes it. The
invariant `TableInv` says that no two neighbours eat, and that a hungry philosopher between two that
do not eat will be tested by somebody. The protocols refine the table through the roles of their
labels.

The second half is what makes progress. A philosopher that puts its forks down owes a test to both
neighbours, and one that becomes hungry owes one to itself (`Role.owes`). A test that fails is a
debt that is settled: the philosopher has a neighbour that eats, and that one will owe it a test in
turn. `TableInv.step` has one case for each kind of step, and `TableInv.quiet` is the end of the
argument: when nobody has a test to make, every hungry philosopher has a neighbour that eats.

The ring may have any number of seats from two on. With two, the left and the right neighbour are
the same philosopher.
-/

set_option autoImplicit false

namespace Ucore.Proofs.Sync

open Ucore.Sync

variable {n : Nat}

/-! ### The ring -/

/-- To the left and back. -/
theorem right_left (i : Fin n) : right (left i) = i := by
  apply Fin.ext
  have hi := i.isLt
  show ((i + n - 1) % n + 1) % n = i
  by_cases hzero : (i : Nat) = 0
  · rw [hzero, Nat.zero_add, Nat.mod_eq_of_lt (by omega : n - 1 < n),
      Nat.sub_add_cancel (by omega), Nat.mod_self]
  · rw [show (i : Nat) + n - 1 = (i - 1) + n from by omega, Nat.add_mod_right,
      Nat.mod_eq_of_lt (by omega : (i : Nat) - 1 < n), Nat.mod_eq_of_lt (by omega)]
    omega

/-- To the right and back. -/
theorem left_right (i : Fin n) : left (right i) = i := by
  apply Fin.ext
  have hi := i.isLt
  show ((i + 1) % n + n - 1) % n = i
  by_cases hlast : (i : Nat) + 1 = n
  · rw [hlast, Nat.mod_self, Nat.mod_eq_of_lt (by omega)]
    omega
  · rw [Nat.mod_eq_of_lt (by omega : (i : Nat) + 1 < n),
      show (i : Nat) + 1 + n - 1 = i + n from by omega, Nat.add_mod_right, Nat.mod_eq_of_lt hi]

/-- Nobody is its own neighbour to the right. -/
theorem right_ne (hn : 2 ≤ n) (i : Fin n) : right i ≠ i := by
  intro h
  have hi := i.isLt
  have hval : ((i : Nat) + 1) % n = i := congrArg Fin.val h
  by_cases hlast : (i : Nat) + 1 = n
  · rw [hlast, Nat.mod_self] at hval
    omega
  · rw [Nat.mod_eq_of_lt (by omega)] at hval
    omega

/-- Nobody is its own neighbour to the left. -/
theorem left_ne (hn : 2 ≤ n) (i : Fin n) : left i ≠ i := by
  intro h
  have hright := right_left i
  rw [h] at hright
  exact right_ne hn i hright

/-! ### The table -/

/-- What a philosopher has yet to do in the critical section. -/
inductive Role
  /-- Nothing. -/
  | quiet
  /-- To test a seat. -/
  | testing (w : Seat)
  /-- The test has passed, and the forks are yet to be taken. -/
  | granting (w : Seat)

/-- The role behind the test of a seat. -/
def Role.after : Seat → Role
  | .own => .quiet
  | .left => .testing .right
  | .right => .quiet

/-- Whether `p` has yet to test `i`. -/
def Role.owes (p i : Fin n) : Role → Prop
  | .quiet => False
  | .testing .own | .granting .own => i = p
  | .testing .left | .granting .left => i = left p ∨ i = right p
  | .testing .right | .granting .right => i = right p

/-- Whom a philosopher owes a test that is at one. -/
theorem Role.owes_testing {p i : Fin n} {w : Seat} :
    (Role.testing w).owes p i ↔ i = w.of p ∨ (Role.after w).owes p i := by
  cases w <;> simp [Role.owes, Role.after, Seat.of]

/-- Whom a philosopher owes a test that is at a grant. -/
theorem Role.owes_granting {p i : Fin n} {w : Seat} :
    (Role.granting w).owes p i ↔ i = w.of p ∨ (Role.after w).owes p i := by
  cases w <;> simp [Role.owes, Role.after, Seat.of]

/-- What the philosopher `p` does to the states and the roles. -/
inductive TableStep (p : Fin n) (state : Fin n → PhiState) (roles : Fin n → Role) :
    (Fin n → PhiState) → (Fin n → Role) → Prop
  | still : TableStep p state roles state roles
  | hungry (hstate : state p = .thinking) (hrole : roles p = .quiet) :
      TableStep p state roles (Function.update state p .hungry)
        (Function.update roles p (.testing .own))
  | fail (w : Seat) (hrole : roles p = .testing w) (hmay : mayEat state (w.of p) = false) :
      TableStep p state roles state (Function.update roles p (.after w))
  | pass (w : Seat) (hrole : roles p = .testing w) (hmay : mayEat state (w.of p) = true) :
      TableStep p state roles state (Function.update roles p (.granting w))
  | grant (w : Seat) (hrole : roles p = .granting w) :
      TableStep p state roles (Function.update state (w.of p) .eating)
        (Function.update roles p (.after w))
  | think (hstate : state p = .eating) (hrole : roles p = .quiet) :
      TableStep p state roles (Function.update state p .thinking)
        (Function.update roles p (.testing .left))

/-- The table at any time. -/
structure TableInv (state : Fin n → PhiState) (roles : Fin n → Role) : Prop where
  apart : ∀ i, state i = .eating → state (left i) ≠ .eating ∧ state (right i) ≠ .eating
  granting : ∀ p w, roles p = .granting w → mayEat state (w.of p) = true
  pending : ∀ i, state i = .hungry → state (left i) = .eating ∨ state (right i) = .eating ∨
    ∃ p, (roles p).owes p i

/-- A hungry philosopher may eat when neither neighbour does. -/
theorem mayEat_iff {state : Fin n → PhiState} {i : Fin n} : mayEat state i = true ↔
    state i = .hungry ∧ state (left i) ≠ .eating ∧ state (right i) ≠ .eating := by
  simp [mayEat, and_assoc]

variable {p : Fin n} {state state' : Fin n → PhiState} {roles roles' : Fin n → Role}

/-- A philosopher that owes a test still owes it when another one moves. -/
theorem owes_update {r : Role} {i : Fin n} (h : ∃ q, (roles q).owes q i)
    (hp : (roles p).owes p i → r.owes p i) :
    ∃ q, (Function.update roles p r q).owes q i := by
  obtain ⟨q, hq⟩ := h
  refine ⟨q, ?_⟩
  by_cases hqp : q = p
  · subst hqp
    rw [Function.update_self]
    exact hp hq
  · rw [Function.update_of_ne hqp]
    exact hq

/-- Only `p` may hold a passed test, and here it holds none. -/
theorem granting_update {r : Role} (honly : ∀ q w, roles q = .granting w → q = p)
    (hr : ∀ w, r ≠ .granting w) (q : Fin n) (w : Seat) :
    Function.update roles p r q ≠ .granting w := by
  intro hq
  by_cases hqp : q = p
  · subst hqp
    rw [Function.update_self] at hq
    exact hr w hq
  · rw [Function.update_of_ne hqp] at hq
    exact hqp (honly q w hq)

/-- A philosopher behind a grant is not at one. -/
theorem Role.after_ne (w w' : Seat) : Role.after w ≠ .granting w' := by
  cases w <;> simp [Role.after]

/-- Every step of a philosopher keeps the table in order, when nobody else holds a passed
test. -/
theorem TableInv.step (hn : 2 ≤ n) (h : TableInv state roles)
    (honly : ∀ q w, roles q = .granting w → q = p)
    (hst : TableStep p state roles state' roles') : TableInv state' roles' := by
  -- `pending` is the field with an argument: a hungry philosopher has a neighbour that eats, or
  -- somebody still owes it a test. The other fields follow the states.
  cases hst with
  | still => exact h
  -- A philosopher that has become hungry tests itself next.
  | hungry hstate hrole =>
      have hkeep : ∀ i, Function.update state p .hungry i = .eating ↔ state i = .eating := by
        intro i
        by_cases hi : i = p
        · subst hi
          rw [Function.update_self, hstate]
          simp
        · rw [Function.update_of_ne hi]
      refine ⟨fun i hi => ?_, fun q w hq => ?_, fun i hi => ?_⟩
      · rw [ne_eq, hkeep, ne_eq, hkeep]
        exact h.apart i ((hkeep i).mp hi)
      · exact absurd hq (granting_update honly (by simp) q w)
      · rw [hkeep, hkeep]
        by_cases hip : i = p
        · refine .inr (.inr ⟨p, ?_⟩)
          rw [Function.update_self]
          exact hip
        · rw [Function.update_of_ne hip] at hi
          refine (h.pending i hi).imp_right (Or.imp_right fun howes => ?_)
          exact owes_update howes fun hp => by
            rw [hrole] at hp
            exact hp.elim
  | fail w hrole hmay =>
      refine ⟨h.apart, fun q w' hq => ?_, fun i hi => ?_⟩
      · exact absurd hq (granting_update honly (Role.after_ne w) q w')
      · by_cases hseat : i = w.of p
        · -- The test has failed because a neighbour eats.
          subst hseat
          have hnot : ¬ (state (w.of p) = .hungry ∧ state (left (w.of p)) ≠ .eating ∧
              state (right (w.of p)) ≠ .eating) := by
            rw [← mayEat_iff, hmay]
            decide
          by_cases hleft : state (left (w.of p)) = .eating
          · exact .inl hleft
          · by_cases hright : state (right (w.of p)) = .eating
            · exact .inr (.inl hright)
            · exact absurd ⟨hi, hleft, hright⟩ hnot
        · refine (h.pending i hi).imp_right (Or.imp_right fun howes => ?_)
          exact owes_update howes fun hp => by
            rw [hrole, Role.owes_testing] at hp
            exact hp.resolve_left hseat
  -- The condition holds, and the write comes next. Nobody else tests in between.
  | pass w hrole hmay =>
      refine ⟨h.apart, fun q w' hq => ?_, fun i hi => ?_⟩
      · by_cases hqp : q = p
        · subst hqp
          rw [Function.update_self] at hq
          cases hq
          exact hmay
        · rw [Function.update_of_ne hqp] at hq
          exact absurd (honly q w' hq) hqp
      · refine (h.pending i hi).imp_right (Or.imp_right fun howes => ?_)
        exact owes_update howes fun hp => by
          rw [hrole, Role.owes_testing] at hp
          exact Role.owes_granting.mpr hp
  | grant w hrole =>
      obtain ⟨hhungry, hleft, hright⟩ := mayEat_iff.mp (h.granting p w hrole)
      generalize ht : w.of p = t at hhungry hleft hright
      have hkeep : ∀ i, Function.update state t .eating i = .eating ↔
          i = t ∨ state i = .eating := by
        intro i
        by_cases hi : i = t
        · subst hi
          simp
        · rw [Function.update_of_ne hi]
          simp [hi]
      refine ⟨fun i hi => ?_, fun q w' hq => ?_, fun i hi => ?_⟩
      · rw [ne_eq, hkeep, ne_eq, hkeep, not_or, not_or]
        rcases (hkeep i).mp hi with rfl | hi'
        · exact ⟨⟨left_ne hn i, hleft⟩, right_ne hn i, hright⟩
        · obtain ⟨hli, hri⟩ := h.apart i hi'
          refine ⟨⟨?_, hli⟩, ?_, hri⟩
          · intro heq
            rw [← heq, right_left] at hright
            exact hright hi'
          · intro heq
            rw [← heq, left_right] at hleft
            exact hleft hi'
      · exact absurd hq (granting_update honly (Role.after_ne w) q w')
      · by_cases hit : i = t
        · subst hit
          rw [Function.update_self] at hi
          cases hi
        · rw [Function.update_of_ne hit] at hi
          rw [hkeep, hkeep]
          rcases h.pending i hi with hl | hr | howes
          · exact .inl (.inr hl)
          · exact .inr (.inl (.inr hr))
          · refine .inr (.inr (owes_update howes fun hp => ?_))
            rw [hrole, Role.owes_granting, ht] at hp
            exact hp.resolve_left hit
  -- A philosopher that stops eating owes a test to both of its neighbours.
  | think hstate hrole =>
      have hkeep : ∀ i, Function.update state p .thinking i = .eating ↔
          i ≠ p ∧ state i = .eating := by
        intro i
        by_cases hi : i = p
        · subst hi
          simp
        · rw [Function.update_of_ne hi]
          simp [hi]
      refine ⟨fun i hi => ?_, fun q w hq => ?_, fun i hi => ?_⟩
      · obtain ⟨hl, hr⟩ := h.apart i ((hkeep i).mp hi).2
        exact ⟨fun heat => hl ((hkeep _).mp heat).2, fun heat => hr ((hkeep _).mp heat).2⟩
      · exact absurd hq (granting_update honly (by simp) q w)
      · have hip : i ≠ p := by
          rintro rfl
          rw [Function.update_self] at hi
          cases hi
        rw [Function.update_of_ne hip] at hi
        rw [hkeep, hkeep]
        -- The neighbours of `p` are the ones it tests now.
        have howes : (i = left p ∨ i = right p) →
            ∃ q, (Function.update roles p (.testing .left) q).owes q i := by
          intro hi'
          refine ⟨p, ?_⟩
          rw [Function.update_self]
          exact hi'
        rcases h.pending i hi with hl | hr | howes'
        · by_cases hlp : left i = p
          · exact .inr (.inr (howes (.inr (by rw [← hlp, right_left]))))
          · exact .inl ⟨hlp, hl⟩
        · by_cases hrp : right i = p
          · exact .inr (.inr (howes (.inl (by rw [← hrp, left_right]))))
          · exact .inr (.inl ⟨hrp, hr⟩)
        · refine .inr (.inr (owes_update howes' fun hp => ?_))
          rw [hrole] at hp
          exact hp.elim

/-- When nobody has a test to make, every hungry philosopher has a neighbour that eats. -/
theorem TableInv.quiet (h : TableInv state roles) (hquiet : ∀ p, roles p = .quiet) (i : Fin n)
    (hi : state i = .hungry) : state (left i) = .eating ∨ state (right i) = .eating := by
  rcases h.pending i hi with hl | hr | ⟨p, hp⟩
  · exact .inl hl
  · exact .inr hr
  · rw [hquiet p] at hp
    exact hp.elim

end Ucore.Proofs.Sync
