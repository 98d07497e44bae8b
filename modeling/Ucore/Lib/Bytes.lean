import Mathlib

/-!
# `Ucore.Lib.Bytes`: memory as bytes, and little-endian numbers in it

A memory gives every address a byte. `slice` reads a run of bytes and `overlay` writes one. `toLe`
and `ofLe` are the little-endian coding of numbers, and `load` and `store` read and write a number
of a given width.

The rules for `slice` and `overlay` are those of reading behind a write: at the same place
(`slice_overlay_same`), inside of it (`slice_overlay_inside`), and apart from it
(`slice_overlay_of_disjoint`). A number is read back as it was stored when it fits the width
(`load_store_same`), and a store elsewhere does not change it (`load_store_of_disjoint`).
-/

set_option autoImplicit false

namespace Ucore.Lib

/-- A byte for every address. -/
abbrev Bytes := Nat → UInt8

/-- `k` bytes of a number, the low one first. -/
def toLe : Nat → Nat → List UInt8
  | 0, _ => []
  | k + 1, v => UInt8.ofNat (v % 256) :: toLe k (v / 256)

/-- The number that bytes code, the low one first. -/
def ofLe : List UInt8 → Nat
  | [] => 0
  | b :: bs => b.toNat + 256 * ofLe bs

/-- A number has as many bytes as asked for. -/
@[simp] theorem length_toLe (k v : Nat) : (toLe k v).length = k := by
  induction k generalizing v with
  | zero => rfl
  | succ k ih => simp [toLe, ih]

/-- A number that fits is read back. -/
theorem ofLe_toLe {k v : Nat} (h : v < 256 ^ k) : ofLe (toLe k v) = v := by
  induction k generalizing v with
  | zero =>
      rw [pow_zero] at h
      simp [toLe, ofLe]
      omega
  | succ k ih =>
      have hdiv : v / 256 < 256 ^ k := by
        rw [Nat.div_lt_iff_lt_mul (by decide)]
        rw [pow_succ] at h
        exact h
      have hbyte : (UInt8.ofNat (v % 256)).toNat = v % 256 := by
        simp
      show (UInt8.ofNat (v % 256)).toNat + 256 * ofLe (toLe k (v / 256)) = v
      rw [ih hdiv, hbyte]
      omega

/-- A number of `k` bytes is below `256 ^ k`. -/
theorem ofLe_lt (bs : List UInt8) : ofLe bs < 256 ^ bs.length := by
  induction bs with
  | nil => exact Nat.one_pos
  | cons b bs ih =>
      have hb : b.toNat < 256 := b.toNat_lt
      rw [List.length_cons, pow_succ]
      show b.toNat + 256 * ofLe bs < _
      omega

/-- Bytes that are all zero are the number 0. -/
theorem ofLe_replicate_zero (k : Nat) : ofLe (List.replicate k 0) = 0 := by
  induction k with
  | zero => rfl
  | succ k ih =>
      rw [List.replicate_succ]
      show (0 : UInt8).toNat + 256 * ofLe (List.replicate k 0) = 0
      rw [ih]
      rfl

/-- A part of a row of parts of one length. -/
theorem flatten_drop_take {α : Type} {n : Nat} (parts : List (List α))
    (h : ∀ p ∈ parts, p.length = n) (rest : List α) (k : Nat) (hk : k < parts.length) :
    ((parts.flatten ++ rest).drop (n * k)).take n = parts[k] := by
  induction parts generalizing k with
  | nil => simp at hk
  | cons p ps ih =>
      have hp : p.length = n := h p List.mem_cons_self
      rw [List.flatten_cons, List.append_assoc]
      cases k with
      | zero =>
          rw [Nat.mul_zero, List.drop_zero, ← hp, List.take_left]
          rfl
      | succ k =>
          rw [Nat.mul_succ, Nat.add_comm, ← List.drop_drop, ← hp, List.drop_left, hp]
          exact ih (fun q hq => h q (List.mem_cons_of_mem _ hq)) k (by simpa using hk)

namespace Bytes

/-- The `len` bytes from `off` on. -/
def slice (m : Bytes) (off len : Nat) : List UInt8 := (List.range len).map fun k => m (off + k)

/-- Write bytes from `off` on. -/
def overlay (m : Bytes) (off : Nat) (bs : List UInt8) : Bytes :=
  fun i => if off ≤ i ∧ i < off + bs.length then bs.getD (i - off) 0 else m i

/-- Read a number of `k` bytes. -/
def load (m : Bytes) (off k : Nat) : Nat := ofLe (m.slice off k)

/-- Write a number of `k` bytes. -/
def store (m : Bytes) (off k v : Nat) : Bytes := m.overlay off (toLe k v)

variable {m m' : Bytes} {off len : Nat}

/-- A slice has its length. -/
@[simp] theorem length_slice (m : Bytes) (off len : Nat) : (m.slice off len).length = len := by
  simp [slice]

/-- A byte of a slice is one of the memory. -/
theorem slice_getD {i : Nat} (h : i < len) : (m.slice off len).getD i 0 = m (off + i) := by
  simp [slice, h]

/-- A slice depends on its own bytes only. -/
theorem slice_congr (h : ∀ i, off ≤ i → i < off + len → m i = m' i) :
    m.slice off len = m'.slice off len := by
  apply List.map_congr_left
  intro k hk
  rw [List.mem_range] at hk
  exact h _ (by omega) (by omega)

/-- A slice is cut in two. -/
theorem slice_append (m : Bytes) (off a b : Nat) :
    m.slice off (a + b) = m.slice off a ++ m.slice (off + a) b := by
  unfold slice
  rw [List.range_add, List.map_append, List.map_map]
  congr 1
  apply List.map_congr_left
  intro k _
  show m (off + (a + k)) = m (off + a + k)
  rw [Nat.add_assoc]

/-- The first bytes of a slice are a shorter slice. -/
theorem slice_take (m : Bytes) (off len k : Nat) :
    (m.slice off len).take k = m.slice off (min k len) := by
  unfold slice
  rw [← List.map_take, List.take_range]

/-- The last bytes of a slice are a slice that begins later. -/
theorem slice_drop (m : Bytes) (off len k : Nat) :
    (m.slice off len).drop k = m.slice (off + k) (len - k) := by
  apply List.ext_getElem
  · simp
  · intro n h h'
    simp only [slice, List.getElem_drop, List.getElem_map, List.getElem_range]
    rw [Nat.add_assoc]

/-- Laying nothing over a memory changes nothing. -/
@[simp] theorem overlay_nil (m : Bytes) (off : Nat) : m.overlay off [] = m := by
  funext i
  unfold overlay
  rw [if_neg]
  simp only [List.length_nil]
  omega

/-- A byte outside of the overlay is as before. -/
theorem overlay_of_outside {bs : List UInt8} {i : Nat} (h : i < off ∨ off + bs.length ≤ i) :
    m.overlay off bs i = m i := by
  unfold overlay
  rw [if_neg]
  omega

/-- A byte inside of the overlay is that of the overlay. -/
theorem overlay_of_inside {bs : List UInt8} {i : Nat} (h : off ≤ i) (h' : i < off + bs.length) :
    m.overlay off bs i = bs.getD (i - off) 0 :=
  if_pos ⟨h, h'⟩

/-- An overlay is laid over in two parts. -/
theorem overlay_append (m : Bytes) (off : Nat) (as bs : List UInt8) :
    m.overlay off (as ++ bs) = (m.overlay off as).overlay (off + as.length) bs := by
  funext i
  have hlen : (as ++ bs).length = as.length + bs.length := List.length_append
  by_cases hb : off + as.length ≤ i ∧ i < off + as.length + bs.length
  · rw [overlay_of_inside hb.1 hb.2, overlay_of_inside (by omega) (by omega),
      List.getD_append_right _ _ _ _ (by omega)]
    congr 1
    omega
  · rw [overlay_of_outside (m := m.overlay off as) (by omega)]
    by_cases ha : off ≤ i ∧ i < off + as.length
    · rw [overlay_of_inside ha.1 ha.2, overlay_of_inside ha.1 (by omega),
        List.getD_append _ _ _ _ (by omega)]
    · have has : m.overlay off as i = m i := overlay_of_outside (by omega)
      rw [has, overlay_of_outside (by omega)]

/-- What was written is read back. -/
theorem slice_overlay_same (m : Bytes) (off : Nat) (bs : List UInt8) :
    (m.overlay off bs).slice off bs.length = bs := by
  apply List.ext_getElem
  · simp
  · intro i h h'
    simp only [slice, List.getElem_map, List.getElem_range]
    rw [overlay_of_inside (by omega) (by omega), Nat.add_sub_cancel_left,
      List.getD_eq_getElem _ _ h']

/-- The bytes that were written, at a place in them. -/
theorem slice_overlay_inside {m : Bytes} {bs : List UInt8} {off len : Nat}
    (h : off + len ≤ bs.length) : (m.overlay 0 bs).slice off len = (bs.drop off).take len := by
  apply List.ext_getElem
  · simp
    omega
  · intro n hn hn'
    have hlen : n < len := by simpa using hn
    simp only [slice, List.getElem_map, List.getElem_range, List.getElem_take,
      List.getElem_drop]
    rw [overlay_of_inside (Nat.zero_le _) (by omega), Nat.sub_zero,
      List.getD_eq_getElem _ _ (by omega)]

/-- A write over the beginning, the middle or the end of a run of bytes. -/
theorem slice_overlay (m : Bytes) (off len : Nat) (bs : List UInt8) (h : off ≤ len) :
    (m.overlay off bs).slice 0 (max len (off + bs.length)) =
      (m.slice 0 len).take off ++ bs ++ (m.slice 0 len).drop (off + bs.length) := by
  have hmax : max len (off + bs.length) = off + bs.length + (len - (off + bs.length)) := by omega
  rw [hmax, slice_append, slice_append, Nat.zero_add, Nat.zero_add, slice_overlay_same,
    slice_take, slice_drop, min_eq_left h, Nat.zero_add]
  congr 1
  · congr 1
    apply slice_congr
    intro i _ hi
    exact overlay_of_outside (by omega)
  · apply slice_congr
    intro i hi _
    exact overlay_of_outside (by omega)

/-- Bytes copied from the beginning of another memory. -/
theorem overlay_slice (m b : Bytes) (off len i : Nat) :
    m.overlay off (b.slice 0 len) i =
      if off ≤ i ∧ i < off + len then b (i - off) else m i := by
  by_cases hi : off ≤ i ∧ i < off + len
  · rw [if_pos hi, overlay_of_inside hi.1 (by rw [length_slice]; exact hi.2),
      slice_getD (by omega), Nat.zero_add]
  · rw [if_neg hi, overlay_of_outside (by rw [length_slice]; omega)]

/-- A write elsewhere is not seen. -/
theorem slice_overlay_of_disjoint {bs : List UInt8} {o : Nat}
    (h : o + len ≤ off ∨ off + bs.length ≤ o) :
    (m.overlay off bs).slice o len = m.slice o len := by
  apply slice_congr
  intro i hi hi'
  exact overlay_of_outside (by omega)

/-- A number that is loaded depends on its own bytes only. -/
theorem load_congr (off : Nat) {k : Nat} (h : ∀ i, off ≤ i → i < off + k → m i = m' i) :
    m.load off k = m'.load off k := by
  unfold load
  rw [slice_congr h]

/-- A number of `k` bytes is below `256 ^ k`. -/
theorem load_lt (m : Bytes) (off k : Nat) : m.load off k < 256 ^ k := by
  have h := ofLe_lt (m.slice off k)
  rw [length_slice] at h
  exact h

/-- What was stored is loaded, when it fits. -/
theorem load_store_same {k v : Nat} (h : v < 256 ^ k) : (m.store off k v).load off k = v := by
  have hslice := slice_overlay_same m off (toLe k v)
  rw [length_toLe] at hslice
  unfold load store
  rw [hslice, ofLe_toLe h]

/-- A store elsewhere does not change what is loaded. -/
theorem load_store_of_disjoint {k k' v o : Nat} (h : o + k' ≤ off ∨ off + k ≤ o) :
    (m.store off k v).load o k' = m.load o k' := by
  unfold load store
  rw [slice_overlay_of_disjoint]
  rw [length_toLe]
  exact h

/-- Bytes that are all zero are loaded as 0. -/
theorem load_zero {k : Nat} (h : ∀ i, off ≤ i → i < off + k → m i = 0) : m.load off k = 0 := by
  have hslice : m.slice off k = List.replicate k 0 := by
    rw [List.eq_replicate_iff]
    refine ⟨length_slice .., fun b hb => ?_⟩
    obtain ⟨i, hi, rfl⟩ := List.mem_map.mp hb
    rw [List.mem_range] at hi
    exact h _ (by omega) (by omega)
  unfold load
  rw [hslice, ofLe_replicate_zero]

end Bytes

end Ucore.Lib
