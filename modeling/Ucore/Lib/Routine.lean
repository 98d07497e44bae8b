import Mathlib.Logic.Basic

/-!
# `Ucore.Lib.Routine`: C functions over a state

A routine reads and changes a state, and then returns a value or an error code, or it does
not return because an assertion fails or the code panics. What it has done to the state
before an error stays done. `attempt` gives the error code to the caller, as a C function
does that looks at the return value and goes on.

`Ends` says how a routine ends from a state: what holds of the value and the state behind
it, of the error code and the state, and of the panic. `Ends.seq` and `Ends.attempt` take it
through a sequence of calls.
-/

set_option autoImplicit false

namespace Ucore.Lib

/-- A C function over the state `σ`, with the error codes `ε` and the panics `π`. -/
def Routine (σ ε π α : Type) : Type := σ → Except π (Except ε α × σ)

namespace Routine

variable {σ ε π α β : Type}

/-- Return a value. -/
def ret (a : α) : Routine σ ε π α := fun s => .ok (.ok a, s)

/-- Return an error code. -/
def fail (e : ε) : Routine σ ε π α := fun s => .ok (.error e, s)

/-- Do not return. -/
def panic (h : π) : Routine σ ε π α := fun _ => .error h

/-- One call and then another, unless the first returns an error code. -/
def seq (x : Routine σ ε π α) (f : α → Routine σ ε π β) : Routine σ ε π β := fun s =>
  match x s with
  | .ok (.ok a, s') => f a s'
  | .ok (.error e, s') => .ok (.error e, s')
  | .error h => .error h

instance : Monad (Routine σ ε π) where
  pure := ret
  bind := seq

/-- Read something of the state. -/
def read (f : σ → α) : Routine σ ε π α := fun s => .ok (.ok (f s), s)

/-- Change the state. -/
def modify (f : σ → σ) : Routine σ ε π Unit := fun s => .ok (.ok (), f s)

/-- `assert`, named by what stops. -/
def assert (h : π) (p : σ → Prop) [DecidablePred p] : Routine σ ε π Unit := fun s =>
  if p s then .ok (.ok (), s) else .error h

/-- An `if` without `else`. -/
def when (p : Prop) [Decidable p] (x : Routine σ ε π Unit) : Routine σ ε π Unit :=
  if p then x else ret ()

/-- Hand the error code to the caller as a value. -/
def attempt (x : Routine σ ε π α) : Routine σ ε π (Except ε α) := fun s =>
  match x s with
  | .ok (r, s') => .ok (.ok r, s')
  | .error h => .error h

/-- Look at the error code, and go on with it. -/
def handle (x : Routine σ ε π α) (f : ε → Routine σ ε π α) : Routine σ ε π α := fun s =>
  match x s with
  | .ok (.ok a, s') => .ok (.ok a, s')
  | .ok (.error e, s') => f e s'
  | .error h => .error h

/-- A routine on one part of the state. -/
def within {τ : Type} (get : τ → σ) (put : τ → σ → τ) (x : Routine σ ε π α) :
    Routine τ ε π α := fun t =>
  match x (get t) with
  | .ok (r, s') => .ok (r, put t s')
  | .error h => .error h

/-- A routine with local variables, which may change them and the state. The error code and
the local variables go to the caller. -/
def withLocals {τ : Type} (init : σ → τ) (get : τ → σ) (x : Routine τ ε π α) :
    Routine σ ε π (Except ε α × τ) := fun s =>
  match x (init s) with
  | .ok (r, t) => .ok (.ok (r, t), get t)
  | .error h => .error h

/-- How a routine ends. -/
def Ends (x : Routine σ ε π α) (s : σ) (Q : α → σ → Prop) (E : ε → σ → Prop) (H : π → Prop) :
    Prop :=
  match x s with
  | .ok (.ok a, s') => Q a s'
  | .ok (.error e, s') => E e s'
  | .error h => H h

variable {s : σ} {Q : α → σ → Prop} {E : ε → σ → Prop} {H : π → Prop}

/-- A result ends at once. -/
@[simp] theorem ends_pure (a : α) :
    (pure a : Routine σ ε π α).Ends s Q E H ↔ Q a s := Iff.rfl

/-- A result ends at once. -/
@[simp] theorem ends_ret (a : α) : (ret a : Routine σ ε π α).Ends s Q E H ↔ Q a s := Iff.rfl

/-- An error ends at once. -/
@[simp] theorem ends_fail (e : ε) : (fail e : Routine σ ε π α).Ends s Q E H ↔ E e s := Iff.rfl

/-- A panic ends at once. -/
@[simp] theorem ends_panic (h : π) : (panic h : Routine σ ε π α).Ends s Q E H ↔ H h := Iff.rfl

/-- A read returns a part of the state. -/
@[simp] theorem ends_read (f : σ → α) :
    (read f : Routine σ ε π α).Ends s Q E H ↔ Q (f s) s := Iff.rfl

/-- A change of the state. -/
@[simp] theorem ends_modify {Q : Unit → σ → Prop} (f : σ → σ) :
    (modify f : Routine σ ε π Unit).Ends s Q E H ↔ Q () (f s) := Iff.rfl

/-- An assertion goes on when it holds and is a panic when not. -/
@[simp] theorem ends_assert {Q : Unit → σ → Prop} (h : π) (p : σ → Prop) [DecidablePred p] :
    (assert h p : Routine σ ε π Unit).Ends s Q E H ↔ if p s then Q () s else H h := by
  unfold Ends assert
  by_cases hp : p s
  · rw [if_pos hp, if_pos hp]
  · rw [if_neg hp, if_neg hp]

/-- A sequence ends as its parts do. -/
@[simp] theorem ends_bind (x : Routine σ ε π α) (f : α → Routine σ ε π β) {Q : β → σ → Prop} :
    (x >>= f).Ends s Q E H ↔ x.Ends s (fun a s' => (f a).Ends s' Q E H) E H := by
  show (x.seq f).Ends s Q E H ↔ _
  unfold Ends seq
  cases x s with
  | error h => rfl
  | ok r =>
      obtain ⟨r, s'⟩ := r
      cases r <;> rfl

/-- An attempt returns the error of its routine as a result. -/
theorem ends_attempt (x : Routine σ ε π α) {Q : Except ε α → σ → Prop} :
    x.attempt.Ends s Q E H ↔
      x.Ends s (fun a s' => Q (.ok a) s') (fun e s' => Q (.error e) s') H := by
  unfold Ends attempt
  cases x s with
  | error h => rfl
  | ok r =>
      obtain ⟨r, s'⟩ := r
      cases r <;> rfl

/-- An error goes to the handler. -/
theorem ends_handle (x : Routine σ ε π α) (f : ε → Routine σ ε π α) :
    (x.handle f).Ends s Q E H ↔ x.Ends s Q (fun e s' => (f e).Ends s' Q E H) H := by
  unfold Ends handle
  cases x s with
  | error h => rfl
  | ok r =>
      obtain ⟨r, s'⟩ := r
      cases r <;> rfl

/-- A routine over a part of the state. -/
theorem ends_within {τ : Type} {get : τ → σ} {put : τ → σ → τ} (x : Routine σ ε π α) {t : τ}
    {Q : α → τ → Prop} {E : ε → τ → Prop} :
    (x.within get put).Ends t Q E H ↔
      x.Ends (get t) (fun a s' => Q a (put t s')) (fun e s' => E e (put t s')) H := by
  unfold Ends within
  cases x (get t) with
  | error h => rfl
  | ok r =>
      obtain ⟨r, s'⟩ := r
      cases r <;> rfl

/-- A routine over its own variables, of which a part is kept. -/
theorem ends_withLocals {τ : Type} {init : σ → τ} {get : τ → σ} (x : Routine τ ε π α)
    {Q : Except ε α × τ → σ → Prop} :
    (x.withLocals init get).Ends s Q E H ↔
      x.Ends (init s) (fun a t => Q (.ok a, t) (get t)) (fun e t => Q (.error e, t) (get t))
        H := by
  unfold Ends withLocals
  cases x (init s) with
  | error h => rfl
  | ok r =>
      obtain ⟨r, t⟩ := r
      cases r <;> rfl

/-- A branch ends as the side that is taken. -/
theorem ends_ite {p : Prop} [Decidable p] (x y : Routine σ ε π α) :
    (if p then x else y).Ends s Q E H ↔ if p then x.Ends s Q E H else y.Ends s Q E H := by
  by_cases hp : p
  · rw [if_pos hp, if_pos hp]
  · rw [if_neg hp, if_neg hp]

/-- A conditional routine does nothing when the condition fails. -/
theorem ends_when {p : Prop} [Decidable p] (x : Routine σ ε π Unit) {Q : Unit → σ → Prop} :
    (when p x).Ends s Q E H ↔ if p then x.Ends s Q E H else Q () s :=
  ends_ite x (ret ())

/-- What is weaker holds too. -/
theorem Ends.mono {x : Routine σ ε π α} {Q' : α → σ → Prop} {E' : ε → σ → Prop} {H' : π → Prop}
    (h : x.Ends s Q' E' H') (hQ : ∀ a s', Q' a s' → Q a s') (hE : ∀ e s', E' e s' → E e s')
    (hH : ∀ h, H' h → H h) : x.Ends s Q E H := by
  unfold Ends at *
  cases hx : x s with
  | error h' =>
      rw [hx] at h
      exact hH h' h
  | ok r =>
      obtain ⟨r, s'⟩ := r
      rw [hx] at h
      cases r with
      | error e => exact hE e s' h
      | ok a => exact hQ a s' h

/-- One call and then another, each by what is known of it. -/
theorem Ends.seq {x : Routine σ ε π α} {f : α → Routine σ ε π β} {Q : β → σ → Prop}
    {Q' : α → σ → Prop} {E' : ε → σ → Prop} {H' : π → Prop} (h : x.Ends s Q' E' H')
    (hQ : ∀ a s', Q' a s' → (f a).Ends s' Q E H) (hE : ∀ e s', E' e s' → E e s')
    (hH : ∀ h, H' h → H h) : (x >>= f).Ends s Q E H :=
  (ends_bind x f).mpr (h.mono hQ hE hH)

/-- A call whose error code the caller looks at. -/
theorem Ends.attempt {x : Routine σ ε π α} {Q : Except ε α → σ → Prop} {Q' : α → σ → Prop}
    {E' : ε → σ → Prop} {H' : π → Prop} (h : x.Ends s Q' E' H')
    (hQ : ∀ a s', Q' a s' → Q (.ok a) s') (hE : ∀ e s', E' e s' → Q (.error e) s')
    (hH : ∀ h, H' h → H h) : x.attempt.Ends s Q E H :=
  (ends_attempt x).mpr (h.mono hQ hE hH)

/-- A routine that returns neither an error code nor panics returns a value. -/
theorem Ends.exists_ok {x : Routine σ ε π α} (h : x.Ends s Q (fun _ _ => False) fun _ => False) :
    ∃ a s', x s = .ok (.ok a, s') ∧ Q a s' := by
  unfold Ends at h
  cases hx : x s with
  | error h' =>
      rw [hx] at h
      exact h.elim
  | ok r =>
      obtain ⟨r, s'⟩ := r
      rw [hx] at h
      cases r with
      | error e => exact h.elim
      | ok a => exact ⟨a, s', rfl, h⟩

/-- A routine that can only end in one way. -/
theorem Ends.run {x : Routine σ ε π α} {s' : σ} {r : Except ε α}
    (h : x.Ends s (fun a s₁ => .ok a = r ∧ s₁ = s') (fun e s₁ => .error e = r ∧ s₁ = s')
      fun _ => False) : x s = .ok (r, s') := by
  unfold Ends at h
  cases hx : x s with
  | error h' =>
      rw [hx] at h
      exact h.elim
  | ok res =>
      obtain ⟨r', s₁⟩ := res
      rw [hx] at h
      cases r' with
      | ok a => exact h.1 ▸ h.2 ▸ rfl
      | error e => exact h.1 ▸ h.2 ▸ rfl

/-- What is known of a routine that has ended with a value. -/
theorem Ends.of_ok {x : Routine σ ε π α} (h : x.Ends s Q E H) {a : α} {s' : σ}
    (hx : x s = .ok (.ok a, s')) : Q a s' := by
  unfold Ends at h
  rw [hx] at h
  exact h

/-- Behind a routine that has ended with a value it is also known that it has. -/
theorem Ends.and_run {x : Routine σ ε π α} (h : x.Ends s Q E H) :
    x.Ends s (fun a s' => Q a s' ∧ x s = .ok (.ok a, s')) E H := by
  unfold Ends at h ⊢
  cases hx : x s with
  | error e =>
      rw [hx] at h
      exact h
  | ok res =>
      obtain ⟨r, s'⟩ := res
      rw [hx] at h
      cases r with
      | ok a => exact ⟨h, rfl⟩
      | error e => exact h

/-- What is known of a routine that has ended with an error code. -/
theorem Ends.of_error {x : Routine σ ε π α} (h : x.Ends s Q E H) {e : ε} {s' : σ}
    (hx : x s = .ok (.error e, s')) : E e s' := by
  unfold Ends at h
  rw [hx] at h
  exact h

/-- What is known of a routine that has panicked. -/
theorem Ends.of_panic {x : Routine σ ε π α} (h : x.Ends s Q E H) {e : π}
    (hx : x s = .error e) : H e := by
  unfold Ends at h
  rw [hx] at h
  exact h

/-- The routine panics. -/
def Panics (x : Routine σ ε π α) (s : σ) (h : π) : Prop :=
  x.Ends s (fun _ _ => False) (fun _ _ => False) fun h' => h' = h

/-- A routine that panics has no other result. -/
theorem Panics.eq {x : Routine σ ε π α} {h : π} (hx : x.Panics s h) : x s = .error h := by
  unfold Panics Ends at hx
  cases hr : x s with
  | error h' =>
      rw [hr] at hx
      rw [hx]
  | ok r =>
      obtain ⟨r, s'⟩ := r
      rw [hr] at hx
      cases r <;> exact hx.elim

/-- Nothing comes behind a panic. -/
theorem Panics.bind {x : Routine σ ε π α} {h : π} (hx : x.Panics s h)
    (f : α → Routine σ ε π β) : (x >>= f).Panics s h :=
  hx.seq (fun _ _ hno => hno.elim) (fun _ _ hno => hno.elim) fun _ heq => heq

/-- The state behind a call. A call that panics has none, and the state in front is given. -/
def behind (x : Routine σ ε π α) (s : σ) : σ := ((x s).toOption.map Prod.snd).getD s

/-- A call whose result has been looked at ends in the state behind it. -/
theorem run_behind {x : Routine σ ε π α} {r : Except ε α}
    (h : (x s).toOption.map Prod.fst = some r) : x s = .ok (r, x.behind s) := by
  unfold behind
  cases hx : x s with
  | error e =>
      rw [hx] at h
      cases h
  | ok a =>
      rw [hx] at h
      rw [← Option.some.inj h]
      rfl

end Routine

/-- What a computation has failed with. -/
def errorOf {ε α : Type} : Except ε α → Option ε
  | .error e => some e
  | .ok _ => none

/-- A computation that has failed. -/
theorem eq_of_errorOf {ε α : Type} {x : Except ε α} {e : ε} (h : errorOf x = some e) :
    x = .error e := by
  cases x with
  | error e' => rw [Option.some.inj h]
  | ok a => cases h

/-- A computation whose result has been looked at in part. -/
theorem exists_of_map {ε α β : Type} {x : Except ε α} {f : α → β} {b : β}
    (h : x.toOption.map f = some b) : ∃ a, x = .ok a ∧ f a = b := by
  cases x with
  | error e => cases h
  | ok a => exact ⟨a, rfl, Option.some.inj h⟩

end Ucore.Lib
