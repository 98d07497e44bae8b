import Ucore.Lib.CString
import Ucore.Lib.Halt

/-!
# `Ucore.Libs.String`: strings of the kernel and of programs

What `libs/string.c` does with a string in memory. The second string of a comparison and the first
one of `strchr` are constants of the program, which have no zero in them.

`strlen` walks over the memory until a zero. It has no bound of its own, so it carries fuel.
`strnlen` and `strncmp` count down, and `strcmp` comes to the end of the constant at the latest. The
lemmas say what each returns on a string that is in memory (`CString`), and how much fuel is enough.
-/

set_option autoImplicit false

namespace Ucore.Libs

open Ucore.Lib

/-- `strlen` -/
def strlen (mem : Bytes) : Nat → Nat → Except Halt Nat
  | 0, _ => .error .fuel
  | fuel + 1, s =>
      if mem s ≠ 0 then do
        let cnt ← strlen mem fuel (s + 1)
        return cnt + 1
      else .ok 0

/-- `strnlen` -/
def strnlen (mem : Bytes) (s : Nat) : Nat → Nat
  | 0 => 0
  | len + 1 => if mem s ≠ 0 then strnlen mem (s + 1) len + 1 else 0

/-- `strcmp` -/
def strcmp (mem : Bytes) : Nat → List UInt8 → Int
  | s, [] => (mem s).toNat
  | s, c :: cs =>
      if mem s ≠ 0 ∧ mem s = c then strcmp mem (s + 1) cs else (mem s).toNat - c.toNat

/-- `strncmp` -/
def strncmp (mem : Bytes) : Nat → List UInt8 → Nat → Int
  | _, _, 0 => 0
  | s, [], _ + 1 => (mem s).toNat
  | s, c :: cs, n + 1 =>
      if mem s ≠ 0 ∧ mem s = c then strncmp mem (s + 1) cs n else (mem s).toNat - c.toNat

/-- Whether `strchr` finds the character. It never finds the end of the string. -/
def strchr (s : List UInt8) (c : UInt8) : Bool := s.contains c

variable {mem : Bytes} {s : Nat} {line : List UInt8}

/-- `strchr` says whether the character is in the string. -/
theorem strchr_iff (s : List UInt8) (c : UInt8) : strchr s c = true ↔ c ∈ s :=
  List.contains_iff_mem

/-- `strlen` counts the bytes of the string. -/
theorem strlen_eq (line : List UInt8) : ∀ {s : Nat}, CString mem s line →
    ∀ fuel, line.length < fuel → strlen mem fuel s = .ok line.length := by
  induction line with
  | nil =>
      intro s h fuel hfuel
      obtain ⟨fuel, rfl⟩ : ∃ m, fuel = m + 1 := ⟨fuel - 1, by simp at hfuel; omega⟩
      rw [strlen, if_neg (not_not.mpr (cstring_nil.mp h))]
      rfl
  | cons c cs ih =>
      intro s h fuel hfuel
      obtain ⟨hc, hne, hcs⟩ := cstring_cons.mp h
      obtain ⟨fuel, rfl⟩ : ∃ m, fuel = m + 1 := ⟨fuel - 1, by omega⟩
      rw [strlen, if_pos (hc ▸ hne), ih hcs fuel (by rw [List.length_cons] at hfuel; omega)]
      rfl

/-- `strnlen` counts the bytes in front of the zero. -/
theorem strnlen_spec (mem : Bytes) (len : Nat) : ∀ s, strnlen mem s len ≤ len ∧
    (∀ i < strnlen mem s len, mem (s + i) ≠ 0) ∧
    (strnlen mem s len < len → mem (s + strnlen mem s len) = 0) := by
  induction len with
  | zero => exact fun s => ⟨Nat.le_refl _, fun i hi => absurd hi (Nat.not_lt_zero i), by simp [strnlen]⟩
  | succ len ih =>
      intro s
      obtain ⟨hle, hne, hzero⟩ := ih (s + 1)
      rw [strnlen]
      by_cases hs : mem s ≠ 0
      · rw [if_pos hs]
        refine ⟨by omega, fun i hi => ?_, fun hlt => ?_⟩
        · cases i with
          | zero => exact hs
          | succ i =>
              have h := hne i (by omega)
              rwa [show s + 1 + i = s + (i + 1) by omega] at h
        · have h := hzero (by omega)
          rwa [show s + 1 + strnlen mem (s + 1) len = s + (strnlen mem (s + 1) len + 1) by omega] at h
      · rw [if_neg hs]
        exact ⟨Nat.zero_le _, fun i hi => absurd hi (Nat.not_lt_zero i), fun _ => not_not.mp hs⟩

/-- Bytes that differ have a difference. -/
theorem sub_ne_zero_of_ne {a b : UInt8} (h : a ≠ b) : (a.toNat : Int) - b.toNat ≠ 0 := by
  intro hsub
  exact h (UInt8.toNat_inj.mp (by omega))

/-- `strcmp` finds the two strings equal. -/
theorem strcmp_eq_zero (text : List UInt8) (htext : 0 ∉ text) : ∀ {s : Nat} {line : List UInt8},
    CString mem s line → (strcmp mem s text = 0 ↔ line = text) := by
  induction text with
  | nil =>
      intro s line h
      rw [strcmp]
      cases line with
      | nil => simp [cstring_nil.mp h]
      | cons c cs =>
          obtain ⟨rfl, hne, -⟩ := cstring_cons.mp h
          exact iff_of_false (by simpa using sub_ne_zero_of_ne hne) (by simp)
  | cons t text ih =>
      intro s line h
      obtain ⟨ht, htext'⟩ := not_or.mp (List.mem_cons.not.mp htext)
      rw [strcmp]
      cases line with
      | nil =>
          rw [if_neg (fun hs => hs.1 (cstring_nil.mp h)), cstring_nil.mp h]
          exact iff_of_false (sub_ne_zero_of_ne ht) (by simp)
      | cons c cs =>
          obtain ⟨rfl, hne, hcs⟩ := cstring_cons.mp h
          by_cases hc : mem s = t
          · rw [if_pos ⟨hne, hc⟩, ih htext' hcs, hc, List.cons.injEq]
            simp
          · rw [if_neg fun hs => hc hs.2]
            exact iff_of_false (sub_ne_zero_of_ne hc) fun heq => hc (List.cons.inj heq).1

/-- `strncmp` with the length of the second string finds that the first one begins with it. -/
theorem strncmp_eq_zero (text : List UInt8) (htext : 0 ∉ text) : ∀ {s : Nat} {line : List UInt8},
    CString mem s line → (strncmp mem s text text.length = 0 ↔ text <+: line) := by
  induction text with
  | nil =>
      intro s line _
      simp [strncmp]
  | cons t text ih =>
      intro s line h
      obtain ⟨ht, htext'⟩ := not_or.mp (List.mem_cons.not.mp htext)
      rw [List.length_cons, strncmp]
      cases line with
      | nil =>
          rw [if_neg (fun hs => hs.1 (cstring_nil.mp h)), cstring_nil.mp h]
          exact iff_of_false (sub_ne_zero_of_ne ht) (by simp)
      | cons c cs =>
          obtain ⟨rfl, hne, hcs⟩ := cstring_cons.mp h
          by_cases hc : mem s = t
          · rw [if_pos ⟨hne, hc⟩, ih htext' hcs, hc, List.cons_prefix_cons]
            simp
          · rw [if_neg fun hs => hc hs.2]
            refine iff_of_false (sub_ne_zero_of_ne hc) fun hpre => ?_
            exact hc (List.cons_prefix_cons.mp hpre).1.symm

end Ucore.Libs
