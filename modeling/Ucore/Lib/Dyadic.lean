import Mathlib

/-!
# `Ucore.Lib.Dyadic`: aligned blocks and their buddies

A dyadic block has a power of two as its length and starts at a multiple of it. The buddy of a block
of length `2 ^ k` is the block whose start differs in bit `k` alone. A block and its buddy are the
two halves of a dyadic block one order up, which is what lets an allocator join them: `xor_two_pow`
says which half is which.

The operation of a program is an exclusive or with `2 ^ k`. At a start that is a multiple of `2 ^ k`
it adds or takes away the length, by the parity of the quotient.
-/

set_option autoImplicit false

namespace Ucore.Lib

/-- Flipping the lowest bit. -/
theorem xor_one (q : Nat) : q ^^^ 1 = if q % 2 = 0 then q + 1 else q - 1 := by
  apply Nat.eq_of_testBit_eq
  intro i
  rw [Nat.testBit_xor]
  cases i with
  | zero =>
      have hlow : q % 2 = 0 ∨ q % 2 = 1 := by omega
      rcases hlow with h | h
      · simp [Nat.testBit_zero, h, Nat.add_mod]
      · have hpred : (q - 1) % 2 = 0 := by omega
        simp [Nat.testBit_zero, h, hpred]
  | succ i =>
      have hone : Nat.testBit 1 (i + 1) = false := by simp [Nat.testBit_succ]
      rw [hone, Bool.xor_false, Nat.testBit_succ, Nat.testBit_succ]
      have hhalf : (if q % 2 = 0 then q + 1 else q - 1) / 2 = q / 2 := by
        split <;> omega
      rw [hhalf]

/-- The buddy of an aligned block is the other half of an aligned block twice as long. -/
theorem xor_two_pow {p k : Nat} (h : 2 ^ k ∣ p) :
    (2 ^ (k + 1) ∣ p ∧ p ^^^ 2 ^ k = p + 2 ^ k) ∨
      (2 ^ (k + 1) ∣ p ^^^ 2 ^ k ∧ p = (p ^^^ 2 ^ k) + 2 ^ k) := by
  obtain ⟨q, rfl⟩ := h
  have hxor : (2 ^ k * q) ^^^ 2 ^ k = 2 ^ k * (q ^^^ 1) := by
    have hd := @Nat.shiftLeft_xor_distrib k q 1
    simp only [Nat.shiftLeft_eq, Nat.one_mul] at hd
    rw [Nat.mul_comm (2 ^ k) q, Nat.mul_comm (2 ^ k) (q ^^^ 1)]
    exact hd.symm
  rw [hxor, xor_one]
  by_cases hq : q % 2 = 0
  · left
    rw [if_pos hq, Nat.pow_succ]
    exact ⟨Nat.mul_dvd_mul_left _ (Nat.dvd_of_mod_eq_zero hq), by ring⟩
  · right
    have hq1 : 1 ≤ q := by omega
    rw [if_neg hq, Nat.pow_succ]
    refine ⟨Nat.mul_dvd_mul_left _ (Nat.dvd_of_mod_eq_zero (by omega)), ?_⟩
    calc 2 ^ k * q = 2 ^ k * (q - 1 + 1) := by rw [Nat.sub_add_cancel hq1]
      _ = 2 ^ k * (q - 1) + 2 ^ k := by ring

/-- A block is not its own buddy. -/
theorem xor_two_pow_ne (p k : Nat) : p ^^^ 2 ^ k ≠ p := by
  intro h
  have hbit := congrArg (fun q => Nat.testBit q k) h
  simp [Nat.testBit_xor] at hbit

/-- A multiple of a power of two is a multiple of every smaller one. -/
theorem two_pow_dvd_of_le {p j k : Nat} (h : 2 ^ k ∣ p) (hjk : j ≤ k) : 2 ^ j ∣ p :=
  (Nat.pow_dvd_pow 2 hjk).trans h

end Ucore.Lib
