import Mathlib
import Ucore.Lib.Dyadic
import Ucore.Lib.Span

/-!
# `Ucore.Lib.Buddies`: sets cut into dyadic blocks

`B k p` says that a block of order `k` starts at `p`. When the blocks cover a set of cells, none
shares a cell with another, and no two blocks below the top order are buddies, then every dyadic
block of cells lies inside one block (`exists_block_of_cells`). So the blocks are the dyadic blocks
of cells that cannot grow (`block_iff_maxBlock`), and the set alone says which they are.

The proof of `exists_block_of_cells` is an induction on the order of the dyadic block. Each half
lies inside a block by the induction hypothesis; when these are two, they are buddies of the same
order, which there are not. `exists_order_iff` is about requests: a block of some order or a larger
one exists if and only if the cells have a dyadic block of that order.
-/

set_option autoImplicit false

namespace Ucore.Lib

/-- The cells of the block of order `k` at `p`. -/
abbrev dyadic (p k : Nat) : Span := ⟨p, 2 ^ k⟩

/-- Of two dyadic blocks that share a cell, the smaller one lies inside the other. -/
theorem dyadic_subset {p r j k c : Nat} (hp : 2 ^ j ∣ p) (hr : 2 ^ k ∣ r) (hjk : j ≤ k)
    (hcp : c ∈ dyadic p j) (hcr : c ∈ dyadic r k) {q : Nat} (hq : q ∈ dyadic p j) :
    q ∈ dyadic r k := by
  obtain ⟨d, rfl⟩ := Nat.exists_eq_add_of_le hjk
  obtain ⟨x, rfl⟩ := hp
  obtain ⟨y, rfl⟩ := hr
  have hpos : 0 < 2 ^ j := Nat.two_pow_pos j
  simp only [Span.mem_iff, Nat.pow_add] at hcp hcr hq ⊢
  -- In units of the smaller block, `x` is one of the `2 ^ d` places from `2 ^ d * y` on.
  have hlow : 2 ^ d * y ≤ x := by
    have hlt : 2 ^ j * (2 ^ d * y) < 2 ^ j * (x + 1) := by
      rw [← Nat.mul_assoc, Nat.mul_add]
      omega
    have hx := Nat.lt_of_mul_lt_mul_left hlt
    omega
  have hhigh : x < 2 ^ d * y + 2 ^ d := by
    have hlt : 2 ^ j * x < 2 ^ j * (2 ^ d * y + 2 ^ d) := by
      rw [Nat.mul_add, ← Nat.mul_assoc]
      omega
    exact Nat.lt_of_mul_lt_mul_left hlt
  have hlow' : 2 ^ j * (2 ^ d * y) ≤ 2 ^ j * x := Nat.mul_le_mul_left _ hlow
  have hhigh' : 2 ^ j * (x + 1) ≤ 2 ^ j * (2 ^ d * y + 2 ^ d) := Nat.mul_le_mul_left _ hhigh
  rw [← Nat.mul_assoc] at hlow'
  rw [Nat.mul_add, Nat.mul_add, ← Nat.mul_assoc] at hhigh'
  omega

/-- Two dyadic blocks of one order that share a cell are the same. -/
theorem dyadic_eq {p r k c : Nat} (hp : 2 ^ k ∣ p) (hr : 2 ^ k ∣ r) (hcp : c ∈ dyadic p k)
    (hcr : c ∈ dyadic r k) : p = r := by
  have hpos : 0 < 2 ^ k := Nat.two_pow_pos k
  have hself : ∀ x, x ∈ dyadic x k := fun x => by simp only [Span.mem_iff]; omega
  have h1 := dyadic_subset hp hr (Nat.le_refl k) hcp hcr (hself p)
  have h2 := dyadic_subset hr hp (Nat.le_refl k) hcr hcp (hself r)
  simp only [Span.mem_iff] at h1 h2
  omega

/-- A dyadic block of cells that cannot grow: it has the top order, or the block one order
up that it is a half of has a cell outside the set. -/
structure MaxBlock (F : Nat → Prop) (top k p : Nat) : Prop where
  order : k ≤ top
  aligned : 2 ^ k ∣ p
  inside : ∀ q ∈ dyadic p k, F q
  grown : k < top → ¬ ∀ q ∈ dyadic (p - p % 2 ^ (k + 1)) (k + 1), F q

section Blocks

variable {B : Nat → Nat → Prop} {F : Nat → Prop} {top : Nat}
  (haligned : ∀ k p, B k p → k ≤ top ∧ 2 ^ k ∣ p)
  (hcells : ∀ q, F q ↔ ∃ k p, B k p ∧ q ∈ dyadic p k)
  (hbuddy : ∀ k p, k < top → B k p → ¬ B k (p ^^^ 2 ^ k))
include haligned hcells hbuddy

/-- Every dyadic block of cells lies inside one of the blocks. -/
theorem exists_block_of_cells : ∀ m, m ≤ top → ∀ p, 2 ^ m ∣ p → (∀ q ∈ dyadic p m, F q) →
    ∃ k r, B k r ∧ m ≤ k ∧ p ∈ dyadic r k := by
  intro m
  induction m with
  | zero =>
      intro _ p _ hp
      obtain ⟨k, r, hB, hpr⟩ := (hcells p).mp (hp p (by simp [Span.mem_iff]))
      exact ⟨k, r, hB, Nat.zero_le k, hpr⟩
  | succ m ih =>
      intro hm p hdvd hp
      have hpos : 0 < 2 ^ m := Nat.two_pow_pos m
      have hdouble : 2 ^ (m + 1) = 2 ^ m + 2 ^ m := by rw [Nat.pow_succ]; omega
      have hlow : 2 ^ m ∣ p := two_pow_dvd_of_le hdvd (Nat.le_succ m)
      have hhigh : 2 ^ m ∣ p + 2 ^ m := Nat.dvd_add hlow (Nat.dvd_refl _)
      -- Both halves lie inside blocks.
      obtain ⟨k₁, r₁, hB₁, hk₁, hr₁⟩ := ih (by omega) p hlow fun q hq => hp q (by
        simp only [Span.mem_iff] at hq ⊢
        omega)
      obtain ⟨k₂, r₂, hB₂, hk₂, hr₂⟩ := ih (by omega) (p + 2 ^ m) hhigh fun q hq => hp q (by
        simp only [Span.mem_iff] at hq ⊢
        omega)
      by_cases h₁ : m + 1 ≤ k₁
      · exact ⟨k₁, r₁, hB₁, h₁, hr₁⟩
      · by_cases h₂ : m + 1 ≤ k₂
        · refine ⟨k₂, r₂, hB₂, h₂, ?_⟩
          apply dyadic_subset hdvd (haligned k₂ r₂ hB₂).2 h₂ _ hr₂
          · simp only [Span.mem_iff]
            omega
          · simp only [Span.mem_iff]
            omega
        · -- Otherwise the halves are blocks themselves, and buddies.
          have hkm₁ : k₁ = m := by omega
          have hkm₂ : k₂ = m := by omega
          subst hkm₁
          subst hkm₂
          have heq₁ : p = r₁ := dyadic_eq hlow (haligned _ _ hB₁).2
            (by simp only [Span.mem_iff]; omega) hr₁
          have heq₂ : p + 2 ^ k₂ = r₂ := dyadic_eq hhigh (haligned _ _ hB₂).2
            (by simp only [Span.mem_iff]; omega) hr₂
          subst heq₁
          subst heq₂
          exfalso
          apply hbuddy k₂ p (by omega) hB₁
          rcases xor_two_pow hlow with ⟨-, he⟩ | ⟨hd, he⟩
          · rw [he]
            exact hB₂
          · exfalso
            -- The lower half is the one that is aligned one order up.
            obtain ⟨x, hx⟩ := hd
            obtain ⟨y, hy⟩ := hdvd
            rw [hx, hy, hdouble] at he
            have hcancel : 2 ^ k₂ * (2 * y) = 2 ^ k₂ * (2 * x + 1) := by
              calc 2 ^ k₂ * (2 * y) = (2 ^ k₂ + 2 ^ k₂) * y := by ring
                _ = (2 ^ k₂ + 2 ^ k₂) * x + 2 ^ k₂ := he
                _ = 2 ^ k₂ * (2 * x + 1) := by ring
            have hparity := Nat.eq_of_mul_eq_mul_left hpos hcancel
            omega

/-- Some block is at least as large as any dyadic block of cells. -/
theorem exists_order_iff {m : Nat} (hm : m ≤ top) :
    (∃ k p, B k p ∧ m ≤ k) ↔ ∃ p, 2 ^ m ∣ p ∧ ∀ q ∈ dyadic p m, F q := by
  constructor
  · rintro ⟨k, p, hB, hmk⟩
    obtain ⟨-, hdvd⟩ := haligned k p hB
    refine ⟨p, two_pow_dvd_of_le hdvd hmk, fun q hq => (hcells q).mpr ⟨k, p, hB, ?_⟩⟩
    have hle : 2 ^ m ≤ 2 ^ k := Nat.pow_le_pow_right (by omega) hmk
    simp only [Span.mem_iff] at hq ⊢
    omega
  · rintro ⟨p, hdvd, hp⟩
    obtain ⟨k, r, hB, hk, -⟩ := exists_block_of_cells haligned hcells hbuddy m hm p hdvd hp
    exact ⟨k, r, hB, hk⟩

/-- The blocks are the dyadic blocks of cells that cannot grow. -/
theorem block_iff_maxBlock
    (hdisjoint : ∀ k p j r q, B k p → B j r → q ∈ dyadic p k → q ∈ dyadic r j → k = j ∧ p = r)
    (k p : Nat) : B k p ↔ MaxBlock F top k p := by
  have hself : ∀ p k, p ∈ dyadic p k := fun p k => by
    have hpos : 0 < 2 ^ k := Nat.two_pow_pos k
    simp only [Span.mem_iff]
    omega
  -- The block one order up contains its halves and starts at a multiple of its length.
  have hup : ∀ p k, 2 ^ (k + 1) ∣ p - p % 2 ^ (k + 1) ∧
      p ∈ dyadic (p - p % 2 ^ (k + 1)) (k + 1) := by
    intro p k
    have hlt := Nat.mod_lt p (Nat.two_pow_pos (k + 1))
    have hle := Nat.mod_le p (2 ^ (k + 1))
    refine ⟨Nat.dvd_sub_mod p, ?_⟩
    simp only [Span.mem_iff]
    omega
  constructor
  · intro hB
    obtain ⟨horder, hdvd⟩ := haligned k p hB
    refine ⟨horder, hdvd, fun q hq => (hcells q).mpr ⟨k, p, hB, hq⟩, fun hk hall => ?_⟩
    obtain ⟨hdvd', hin⟩ := hup p k
    obtain ⟨j, r, hB', hj, hr⟩ :=
      exists_block_of_cells haligned hcells hbuddy (k + 1) hk _ hdvd' hall
    have hpr : p ∈ dyadic r j :=
      dyadic_subset hdvd' (haligned j r hB').2 hj (hself _ _) hr hin
    have hkj := (hdisjoint k p j r p hB hB' (hself p k) hpr).1
    omega
  · intro hmax
    obtain ⟨j, r, hB, hkj, hpr⟩ := exists_block_of_cells haligned hcells hbuddy k hmax.order p
      hmax.aligned hmax.inside
    obtain ⟨hj, hdvd⟩ := haligned j r hB
    rcases Nat.eq_or_lt_of_le hkj with heq | hlt
    · subst heq
      rw [dyadic_eq hmax.aligned hdvd (hself p k) hpr]
      exact hB
    · -- The block is larger, so the set has the block one order up as well.
      exfalso
      apply hmax.grown (by omega)
      obtain ⟨hdvd', hin⟩ := hup p k
      intro q hq
      exact (hcells q).mpr ⟨j, r, hB, dyadic_subset hdvd' hdvd hlt hin hpr hq⟩

end Blocks

end Ucore.Lib
