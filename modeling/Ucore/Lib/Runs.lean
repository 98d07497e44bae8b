import Mathlib
import Ucore.Lib.Span

/-!
# `Ucore.Lib.Runs`: maximal runs of consecutive cells

A set of cells has one decomposition into maximal runs. A list of nonempty spans in ascending order
with a gap between any two *is* that decomposition of the cells it covers (`mem_iff_maxRun`), so two
such lists over the same cells are equal (`eq_of_same_cells`), and the longest request such a list
can serve is the longest that the set can (`exists_long_iff`).

`MaxRun F b` says that all cells of `b` are in `F`, and neither the cell in front of it nor the one
behind it is. Two maximal runs that share a cell are the same (`MaxRun.eq_of_mem`).
-/

set_option autoImplicit false

namespace Ucore.Lib

/-- A span of cells of `F` that cannot be extended on either side. -/
structure MaxRun (F : Nat → Prop) (b : Span) : Prop where
  pos : 0 < b.len
  inside : ∀ p ∈ b, F p
  before : ∀ p, p + 1 = b.start → ¬ F p
  behind : ¬ F b.stop

/-- From a cell of a maximal run, consecutive cells stay in it. -/
theorem MaxRun.stays {F : Nat → Prop} {b : Span} (h : MaxRun F b) {p : Nat} (hp : p ∈ b) :
    ∀ i, (∀ j, j ≤ i → F (p + j)) → p + i ∈ b := by
  intro i
  induction i with
  | zero => intro _; exact hp
  | succ i ih =>
      intro hF
      have hi := ih fun j hj => hF j (by omega)
      by_contra hout
      have hend : p + (i + 1) = b.stop := by
        simp only [Span.mem_iff, Span.stop] at hi hout ⊢
        omega
      exact h.behind (hend ▸ hF (i + 1) (le_refl _))

/-- Two maximal runs that share a cell are the same run. -/
theorem MaxRun.eq_of_mem {F : Nat → Prop} {b c : Span} (hb : MaxRun F b) (hc : MaxRun F c)
    {p : Nat} (hpb : p ∈ b) (hpc : p ∈ c) : b = c := by
  have hstop : ∀ {b c : Span}, MaxRun F b → MaxRun F c → p ∈ b → p ∈ c → b.stop ≤ c.stop := by
    intro b c hb hc hpb hpc
    by_contra hlt
    apply hc.behind
    apply hb.inside
    simp only [Span.mem_iff, Span.stop] at hpb hpc hlt ⊢
    omega
  have hstart : ∀ {b c : Span}, MaxRun F b → MaxRun F c → p ∈ b → p ∈ c → c.start ≤ b.start := by
    intro b c hb hc hpb hpc
    by_contra hlt
    have hcell : (c.start - 1) ∈ b := by
      simp only [Span.mem_iff] at hpb hpc hlt ⊢
      omega
    exact hc.before (c.start - 1) (by omega) (hb.inside _ hcell)
  have h1 := hstop hb hc hpb hpc
  have h2 := hstop hc hb hpc hpb
  have h3 := hstart hb hc hpb hpc
  have h4 := hstart hc hb hpc hpb
  obtain ⟨bs, bl⟩ := b
  obtain ⟨cs, cl⟩ := c
  simp only [Span.stop] at h1 h2 h3 h4
  simp only [Span.mk.injEq]
  omega

section Gapped

variable {F : Nat → Prop} {bs : List Span} (hgap : bs.Pairwise fun b c => b.stop < c.start)
  (hpos : ∀ b ∈ bs, 0 < b.len) (hF : ∀ p, F p ↔ ∃ b ∈ bs, p ∈ b)
include hgap hpos hF

/-- A span of such a list is a maximal run of the cells the list covers. -/
theorem maxRun_of_mem {b : Span} (hb : b ∈ bs) : MaxRun F b := by
  -- No other span of the list touches `b`.
  have hapart : ∀ c ∈ bs, c = b ∨ c.stop < b.start ∨ b.stop < c.start := by
    intro c hc
    obtain ⟨ys, zs, rfl⟩ := List.append_of_mem hb
    obtain ⟨-, hright, hcross⟩ := List.pairwise_append.mp hgap
    rcases List.mem_append.mp hc with hy | hz
    · exact Or.inr (Or.inl (hcross c hy b List.mem_cons_self))
    · rcases List.mem_cons.mp hz with rfl | hz
      · exact Or.inl rfl
      · exact Or.inr (Or.inr ((List.pairwise_cons.mp hright).1 c hz))
  have hlen := hpos b hb
  refine ⟨hlen, fun p hp => (hF p).mpr ⟨b, hb, hp⟩, ?_, ?_⟩
  · intro p hp hFp
    obtain ⟨c, hc, hpc⟩ := (hF p).mp hFp
    rw [Span.mem_iff] at hpc
    rcases hapart c hc with rfl | h | h
    · omega
    · unfold Span.stop at h
      omega
    · unfold Span.stop at h
      omega
  · intro hFp
    obtain ⟨c, hc, hpc⟩ := (hF _).mp hFp
    rw [Span.mem_iff] at hpc
    unfold Span.stop at hpc
    rcases hapart c hc with rfl | h | h
    · omega
    · unfold Span.stop at h
      omega
    · unfold Span.stop at h
      omega

/-- Such a list has exactly the maximal runs. -/
theorem mem_iff_maxRun (b : Span) : b ∈ bs ↔ MaxRun F b := by
  constructor
  · exact maxRun_of_mem hgap hpos hF
  · intro hb
    have hcell : b.start ∈ b := by
      have hlen := hb.pos
      simp only [Span.mem_iff]
      omega
    obtain ⟨c, hc, hpc⟩ := (hF _).mp (hb.inside _ hcell)
    rw [hb.eq_of_mem (maxRun_of_mem hgap hpos hF hc) hcell hpc]
    exact hc

/-- A request for `k` consecutive cells fits into one of the spans if the set has `k`
consecutive cells at all. -/
theorem exists_long_iff {k : Nat} (hk : 0 < k) :
    (∃ b ∈ bs, k ≤ b.len) ↔ ∃ p, ∀ i, i < k → F (p + i) := by
  constructor
  · rintro ⟨b, hb, hle⟩
    refine ⟨b.start, fun i hi => (hF _).mpr ⟨b, hb, ?_⟩⟩
    simp only [Span.mem_iff]
    omega
  · rintro ⟨p, hp⟩
    obtain ⟨b, hb, hpb⟩ := (hF _).mp (hp 0 hk)
    refine ⟨b, hb, ?_⟩
    have hlast := (maxRun_of_mem hgap hpos hF hb).stays hpb (k - 1) fun j hj => hp j (by omega)
    simp only [Nat.add_zero, Span.mem_iff] at hpb hlast
    omega

/-- The list depends on the cells alone. -/
theorem eq_of_same_cells {cs : List Span} (hgap' : cs.Pairwise fun b c => b.stop < c.start)
    (hpos' : ∀ b ∈ cs, 0 < b.len) (hF' : ∀ p, F p ↔ ∃ b ∈ cs, p ∈ b) : bs = cs := by
  have hmem : ∀ b, b ∈ bs ↔ b ∈ cs := fun b =>
    (mem_iff_maxRun hgap hpos hF b).trans (mem_iff_maxRun hgap' hpos' hF' b).symm
  -- Both lists ascend, so equal members means equal lists.
  have hasc : ∀ ds : List Span, ds.Pairwise (fun b c => b.stop < c.start) →
      ds.Pairwise fun b c => b.start < c.start := by
    intro ds hds
    refine hds.imp ?_
    intro b c h
    simp only [Span.stop] at h
    omega
  have hnodup : ∀ ds : List Span, ds.Pairwise (fun b c => b.start < c.start) → ds.Nodup := by
    intro ds hds
    refine hds.imp ?_
    rintro b c h rfl
    omega
  have hperm : bs.Perm cs := (List.perm_ext_iff_of_nodup (hnodup _ (hasc _ hgap))
    (hnodup _ (hasc _ hgap'))).mpr hmem
  refine hperm.eq_of_pairwise ?_ (hasc _ hgap) (hasc _ hgap')
  intro b c _ _ h1 h2
  omega

end Gapped

end Ucore.Lib
