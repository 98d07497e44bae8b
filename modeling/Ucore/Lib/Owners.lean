import Mathlib

/-!
# `Ucore.Lib.Owners`: numbered cells and who holds them

Slots hold cells, which are numbered from one; a slot that holds nothing has the number zero. A map
tells which cells are free. `Owned` says that no cell is held twice and no free cell is held, and
`Covered` that every cell below a limit that is not free is held. Taking a free cell and giving one
back keep both, and change the number of free cells by one.

* `Owned.take`, `Covered.take`: a slot that held nothing gets a free cell.
* `Owned.give`, `Covered.give`: a slot gives its cell back.
* `freeCount_take`, `freeCount_give`: the number of free cells below the limit.

A file system has its blocks in this way: the slots are the places in which a block number can
stand.
-/

set_option autoImplicit false

namespace Ucore.Lib

variable {K : Type}

/-- No cell is held twice, and no free cell is held. -/
structure Owned (slot : K → Nat) (free : Nat → Bool) : Prop where
  inj : ∀ x y, slot x ≠ 0 → slot x = slot y → x = y
  used : ∀ x, slot x ≠ 0 → free (slot x) = false

/-- Every cell below the limit is free or held. -/
def Covered (slot : K → Nat) (free : Nat → Bool) (limit : Nat) : Prop :=
  ∀ b, 0 < b → b < limit → free b = false → ∃ x, slot x = b

/-- The number of free cells below the limit. -/
def freeCount (free : Nat → Bool) (limit : Nat) : Nat :=
  ((Finset.range limit).filter fun b => free b = true).card

variable [DecidableEq K] {slot : K → Nat} {free : Nat → Bool} {x : K} {b limit : Nat}

/-- A free cell goes to an empty slot. -/
theorem Owned.take (h : Owned slot free) (hb : free b = true) (hb0 : b ≠ 0) :
    Owned (Function.update slot x b) (Function.update free b false) := by
  have hne : ∀ y, slot y ≠ 0 → slot y ≠ b := by
    intro y hy heq
    have hused := h.used y hy
    rw [heq, hb] at hused
    cases hused
  refine ⟨fun y z hy hyz => ?_, fun y hy => ?_⟩
  · by_cases hyx : y = x
    · by_cases hzx : z = x
      · rw [hyx, hzx]
      · subst hyx
        rw [Function.update_self, Function.update_of_ne hzx] at hyz
        exact absurd hyz.symm (hne z (by rw [← hyz]; exact hb0))
    · rw [Function.update_of_ne hyx] at hy hyz
      by_cases hzx : z = x
      · subst hzx
        rw [Function.update_self] at hyz
        exact absurd hyz (hne y hy)
      · rw [Function.update_of_ne hzx] at hyz
        exact h.inj y z hy hyz
  · by_cases hyx : y = x
    · subst hyx
      rw [Function.update_self, Function.update_self]
    · rw [Function.update_of_ne hyx] at hy ⊢
      rw [Function.update_of_ne (hne y hy)]
      exact h.used y hy

/-- A slot gives its cell back. -/
theorem Owned.give (h : Owned slot free) (hx : slot x ≠ 0) :
    Owned (Function.update slot x 0) (Function.update free (slot x) true) := by
  refine ⟨fun y z hy hyz => ?_, fun y hy => ?_⟩
  · have hyx : y ≠ x := by
      rintro rfl
      rw [Function.update_self] at hy
      exact hy rfl
    rw [Function.update_of_ne hyx] at hy hyz
    have hzx : z ≠ x := by
      rintro rfl
      rw [Function.update_self] at hyz
      exact hy hyz
    rw [Function.update_of_ne hzx] at hyz
    exact h.inj y z hy hyz
  · have hyx : y ≠ x := by
      rintro rfl
      rw [Function.update_self] at hy
      exact hy rfl
    rw [Function.update_of_ne hyx] at hy ⊢
    have hne : slot y ≠ slot x := fun heq => hyx (h.inj y x hy heq)
    rw [Function.update_of_ne hne]
    exact h.used y hy

/-- A free cell gets a place, and nothing is lost. -/
theorem Covered.take (h : Covered slot free limit) (hx : slot x = 0) :
    Covered (Function.update slot x b) (Function.update free b false) limit := by
  intro c hc hlt hfree
  by_cases hcb : c = b
  · subst hcb
    exact ⟨x, Function.update_self ..⟩
  · rw [Function.update_of_ne hcb] at hfree
    obtain ⟨y, hy⟩ := h c hc hlt hfree
    refine ⟨y, ?_⟩
    rw [Function.update_of_ne, hy]
    rintro rfl
    omega

/-- A place gives its cell back, and nothing is lost. -/
theorem Covered.give (h : Covered slot free limit) :
    Covered (Function.update slot x 0) (Function.update free (slot x) true) limit := by
  intro c hc hlt hfree
  have hcx : c ≠ slot x := by
    rintro rfl
    rw [Function.update_self] at hfree
    cases hfree
  rw [Function.update_of_ne hcx] at hfree
  obtain ⟨y, hy⟩ := h c hc hlt hfree
  refine ⟨y, ?_⟩
  rw [Function.update_of_ne, hy]
  rintro rfl
  exact hcx hy.symm

/-- The count is positive when some cell is free. -/
theorem freeCount_pos_iff : 0 < freeCount free limit ↔ ∃ b, b < limit ∧ free b = true := by
  unfold freeCount
  rw [Finset.card_pos]
  constructor
  · rintro ⟨c, hc⟩
    rw [Finset.mem_filter, Finset.mem_range] at hc
    exact ⟨c, hc⟩
  · rintro ⟨c, hc⟩
    exact ⟨c, Finset.mem_filter.mpr ⟨Finset.mem_range.mpr hc.1, hc.2⟩⟩

/-- Taking a free cell lowers the count by one. -/
theorem freeCount_take (hb : free b = true) (hlt : b < limit) :
    freeCount (Function.update free b false) limit + 1 = freeCount free limit := by
  have hset : (Finset.range limit).filter (fun c => Function.update free b false c = true) =
      ((Finset.range limit).filter fun c => free c = true).erase b := by
    ext c
    rw [Finset.mem_erase, Finset.mem_filter, Finset.mem_filter]
    by_cases hcb : c = b
    · subst hcb
      simp
    · simp [hcb]
  unfold freeCount
  rw [hset]
  exact Finset.card_erase_add_one (Finset.mem_filter.mpr ⟨Finset.mem_range.mpr hlt, hb⟩)

/-- Giving a cell back raises the count by one. -/
theorem freeCount_give (hb : free b = false) (hlt : b < limit) :
    freeCount (Function.update free b true) limit = freeCount free limit + 1 := by
  have hself : Function.update free b true b = true := Function.update_self ..
  have h := freeCount_take hself hlt
  rw [Function.update_idem] at h
  have hback : Function.update free b false = free := by
    rw [← hb]
    exact Function.update_eq_self b free
  rw [hback] at h
  exact h.symm

end Ucore.Lib
