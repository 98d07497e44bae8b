import Mathlib.Init

/-!
# `Ucore.Lib.Halt`: calls that do not return

A call of a C function can fail to return. An `assert` or a `panic` stops the machine, and a loop
can run forever. A loop without a bound of its own carries a fuel argument here, and running out of
it is the second way to halt. A statement about a call that returns therefore reads "for some fuel",
and a statement that a call does return names the fuel that is enough.

A function that can halt returns an `Except Halt`. `Halt.bind_eq_ok` takes a sequence of two calls
apart: the whole has returned when both have.
-/

set_option autoImplicit false

namespace Ucore.Lib

/-- Why a call does not return. -/
inductive Halt
  /-- An assertion failed, or the code called `panic`. -/
  | assert
  /-- An assertion that an allocation found memory failed. -/
  | noMem
  /-- A loop outran its fuel. -/
  | fuel
  deriving DecidableEq, Repr

/-- A sequence of two calls returns when both do. -/
theorem Halt.bind_eq_ok {ε α β : Type} {x : Except ε α} {f : α → Except ε β} {r : β} :
    x >>= f = .ok r ↔ ∃ a, x = .ok a ∧ f a = .ok r := by
  cases x with
  | error e => simp [bind, Except.bind]
  | ok a => simp [bind, Except.bind]

/-- A call that is known to return. -/
theorem toOption_eq_some {ε α : Type} {x : Except ε α} {a : α} (h : x.toOption = some a) :
    x = .ok a := by
  cases x with
  | error e => cases h
  | ok b => exact congrArg Except.ok (Option.some.inj h)

/-- The second result of a call that is known to return. -/
theorem toOption_snd {ε α β : Type} {x : Except ε (α × β)} {b : β}
    (h : x.toOption.map Prod.snd = some b) : ∃ a, x = .ok (a, b) := by
  obtain ⟨⟨a, b'⟩, hx, rfl⟩ := Option.map_eq_some_iff.mp h
  exact ⟨a, toOption_eq_some hx⟩

end Ucore.Lib
