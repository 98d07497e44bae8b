import Ucore.Lib.Bytes

/-!
# `Ucore.Lib.CString`: strings in memory

A string lies at an address with the zero behind it.

The string is a list of characters that are not zero. `cstring_cons` reads it from the front, which
is what a loop over a string does in each round, and `cstring_congr` says that only the memory from
its start on matters.
-/

set_option autoImplicit false

namespace Ucore.Lib

variable {mem mem' : Bytes} {a : Nat} {c : UInt8} {line cs : List UInt8}

/-- The string is at the address, with the zero behind it. -/
def CString (mem : Bytes) (a : Nat) (line : List UInt8) : Prop :=
  mem.slice a line.length = line ∧ mem (a + line.length) = 0 ∧ 0 ∉ line

/-- The first byte of a slice and the rest. -/
theorem slice_succ (mem : Bytes) (a n : Nat) :
    mem.slice a (n + 1) = mem a :: mem.slice (a + 1) n := by
  rw [Nat.add_comm, Bytes.slice_append]
  simp [Bytes.slice]

/-- The empty string is a NUL. -/
theorem cstring_nil : CString mem a [] ↔ mem a = 0 := by simp [CString, Bytes.slice]

/-- A string is its first character, not NUL, and the rest. -/
theorem cstring_cons : CString mem a (c :: cs) ↔ mem a = c ∧ c ≠ 0 ∧ CString mem (a + 1) cs := by
  unfold CString
  rw [List.length_cons, slice_succ, List.cons.injEq, List.mem_cons, not_or,
    show a + (cs.length + 1) = a + 1 + cs.length by omega, ne_comm]
  tauto

/-- A string depends on the memory from its start on only. -/
theorem cstring_congr (h : CString mem a line) (hsame : ∀ x, a ≤ x → mem' x = mem x) :
    CString mem' a line := by
  refine ⟨?_, ?_, h.2.2⟩
  · rw [Bytes.slice_congr (m := mem') fun i hi _ => hsame i hi]
    exact h.1
  · rw [hsame _ (by omega)]
    exact h.2.1

end Ucore.Lib
