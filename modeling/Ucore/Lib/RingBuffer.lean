import Mathlib

/-!
# `Ucore.Lib.RingBuffer`: a ring between two indices that only grow

The entries with the indices from `r` up to `w` stand at their remainders modulo the size of the
ring. As long as `w` is less than the size ahead of `r`, a store at `w` appends (`contents_push`).
When the ring is full it replaces the oldest entry (`contents_store_full`).

The rules are those of a queue. `contents_push` and `contents_pop` append at `w` and take at `r`,
and `contents_update` says that a store elsewhere changes nothing. `mod_ne_of_lt` is the arithmetic:
two indices that are less than the size apart have different places.
-/

set_option autoImplicit false

namespace Ucore.Lib.RingBuffer

variable {α : Type} {n r w : Nat} {buf : Nat → α}

/-- The entries from the index `r` up to `w`, in a ring of `n`. -/
def contents (n : Nat) (buf : Nat → α) (r w : Nat) : List α :=
  (List.range' r (w - r)).map fun i => buf (i % n)

/-- The buffer is empty when the two positions agree. -/
theorem contents_self (n : Nat) (buf : Nat → α) (r : Nat) : contents n buf r r = [] := by
  simp [contents]

/-- The buffer holds as many elements as the positions are apart. -/
@[simp] theorem length_contents : (contents n buf r w).length = w - r := by simp [contents]

/-- The oldest entry stands at `r`. -/
theorem contents_pop (h : r < w) :
    contents n buf r w = buf (r % n) :: contents n buf (r + 1) w := by
  have hlen : w - r = w - (r + 1) + 1 := by omega
  simp only [contents, hlen, List.range'_succ, List.map_cons]

/-- Two indices less than the size apart have different places. -/
theorem mod_ne_of_lt {i j : Nat} (hij : i < j) (hn : j < i + n) : i % n ≠ j % n := by
  intro heq
  have hdvd : n ∣ j - i := (Nat.modEq_iff_dvd' (Nat.le_of_lt hij)).mp heq
  have hle := Nat.le_of_dvd (by omega) hdvd
  omega

/-- The entries do not depend on the other places. -/
theorem contents_update {i : Nat} (c : α) (h : ∀ j, r ≤ j → j < w → j % n ≠ i % n) :
    contents n (Function.update buf (i % n) c) r w = contents n buf r w := by
  refine List.map_congr_left fun j hj => ?_
  obtain ⟨hr, hw⟩ := List.mem_range'_1.mp hj
  exact Function.update_of_ne (h j hr (by omega)) ..

/-- A store at `w` appends while there is room. -/
theorem contents_push (c : α) (hr : r ≤ w) (hroom : w < r + n) :
    contents n (Function.update buf (w % n) c) r (w + 1) = contents n buf r w ++ [c] := by
  have hlen : w + 1 - r = w - r + 1 := by omega
  have hlast : r + (w - r) = w := by omega
  have hold : contents n (Function.update buf (w % n) c) r w = contents n buf r w :=
    contents_update c fun j hj hj' => mod_ne_of_lt hj' (by omega)
  unfold contents at hold ⊢
  rw [hlen, List.range'_concat, List.map_append, hold]
  simp [hlast]

/-- A store at `w` replaces the oldest entry when the ring is full. -/
theorem contents_store_full (c : α) (hn : 0 < n) (hfull : w = r + n) :
    contents n (Function.update buf (w % n) c) r w = c :: contents n buf (r + 1) w := by
  have hmod : w % n = r % n := by rw [hfull, Nat.add_mod_right]
  rw [contents_pop (by omega), hmod, Function.update_self,
    contents_update c fun j hj hj' => (mod_ne_of_lt hj (by omega)).symm]

end Ucore.Lib.RingBuffer
