import Mathlib

/-!
# `Ucore.Lib.Span`: tilings of an interval by spans

An allocator cuts an interval of cells into spans and hands some of them out. Whatever
it does, each cell lies in exactly one span. `cover bs p` counts the spans of `bs` that
hold the cell `p`, and `Tiles bs a n` says that the count is one on `[a, a + n)` and
zero elsewhere. A count adds up over appends and permutations, so splitting, joining and
handing over a span are equations between counts (`cover_split`).

`Tiles` gives back what a reader asks for: the spans are pairwise disjoint
(`Tiles.pairwise_disjoint`) and stay inside the interval (`Tiles.subset`).
-/

set_option autoImplicit false

namespace Ucore.Lib

/-- `len` consecutive cells from `start` on. -/
structure Span where
  start : Nat
  len : Nat
  deriving DecidableEq, Repr

namespace Span

/-- The first cell behind the span. -/
def stop (b : Span) : Nat := b.start + b.len

instance : Membership Nat Span := ⟨fun b p => b.start ≤ p ∧ p < b.stop⟩

/-- The cells of a span. -/
theorem mem_iff (b : Span) (p : Nat) : p ∈ b ↔ b.start ≤ p ∧ p < b.start + b.len := Iff.rfl

instance (b : Span) (p : Nat) : Decidable (p ∈ b) :=
  inferInstanceAs (Decidable (b.start ≤ p ∧ p < b.stop))

/-- Two spans share no cell. -/
def Disjoint (b c : Span) : Prop := ∀ p, p ∈ b → p ∉ c

/-- Disjointness is symmetric. -/
theorem Disjoint.symm {b c : Span} (h : b.Disjoint c) : c.Disjoint b :=
  fun p hc hb => h p hb hc

/-- Disjoint spans that are not empty lie one behind the other. -/
theorem Disjoint.before {b c : Span} (h : b.Disjoint c) (hb : 0 < b.len) (hc : 0 < c.len) :
    b.stop ≤ c.start ∨ c.stop ≤ b.start := by
  have h1 := h b.start
  have h2 := h c.start
  simp only [mem_iff, stop] at h1 h2 ⊢
  omega

end Span

/-- How many of the spans hold the cell `p`. -/
def cover (bs : List Span) (p : Nat) : Nat := bs.countP (fun b => p ∈ b)

/-- No span covers a cell. -/
@[simp] theorem cover_nil (p : Nat) : cover [] p = 0 := rfl

/-- How many spans cover a cell, with one more. -/
theorem cover_cons (b : Span) (bs : List Span) (p : Nat) :
    cover (b :: bs) p = cover bs p + if p ∈ b then 1 else 0 := by
  simp [cover, List.countP_cons]

/-- The count of a list, one span at a time. -/
theorem cover_cons_eq_add (b : Span) (bs : List Span) (p : Nat) :
    cover (b :: bs) p = cover [b] p + cover bs p := by
  rw [cover_cons, cover_cons, cover_nil]
  omega

/-- How many spans of two lists cover a cell. -/
@[simp] theorem cover_append (bs cs : List Span) (p : Nat) :
    cover (bs ++ cs) p = cover bs p + cover cs p := by
  simp [cover, List.countP_append]

/-- The order of the spans does not matter for a cell. -/
theorem cover_perm {bs cs : List Span} (h : bs.Perm cs) (p : Nat) : cover bs p = cover cs p :=
  h.countP_eq _

/-- A span cut in two covers what its two parts cover. -/
theorem cover_split (start m n p : Nat) :
    cover [⟨start, m + n⟩] p = cover [⟨start, m⟩] p + cover [⟨start + m, n⟩] p := by
  simp only [cover_cons, cover_nil, Span.mem_iff]
  split <;> split <;> split <;> omega

/-- A cell of one of the spans is covered. -/
theorem cover_pos {bs : List Span} {b : Span} {p : Nat} (hb : b ∈ bs) (hp : p ∈ b) :
    0 < cover bs p := by
  simp only [cover, List.countP_pos_iff]
  exact ⟨b, hb, by simpa using hp⟩

/-- A covered cell lies in one of the spans. -/
theorem exists_of_cover_pos {bs : List Span} {p : Nat} (h : 0 < cover bs p) :
    ∃ b ∈ bs, p ∈ b := by
  simpa [cover, List.countP_pos_iff] using h

/-- The spans tile the interval of `n` cells from `a` on: every cell of the interval lies
in exactly one of them, and no other cell in any. -/
def Tiles (bs : List Span) (a n : Nat) : Prop :=
  ∀ p, cover bs p = if p ∈ (⟨a, n⟩ : Span) then 1 else 0

/-- The order of the spans does not matter for a tiling. -/
theorem Tiles.perm {bs cs : List Span} {a n : Nat} (h : Tiles bs a n) (hp : bs.Perm cs) :
    Tiles cs a n := fun p => (cover_perm hp p).symm.trans (h p)

/-- Spans that cover no cell twice are disjoint. -/
theorem pairwise_disjoint_of_cover_le {bs : List Span} (h : ∀ p, cover bs p ≤ 1) :
    bs.Pairwise Span.Disjoint := by
  induction bs with
  | nil => exact List.Pairwise.nil
  | cons c cs ih =>
      constructor
      · intro b hb p hc hp
        have hpos := cover_pos hb hp
        have hone := h p
        rw [cover_cons, if_pos hc] at hone
        omega
      · apply ih
        intro p
        have hone := h p
        rw [cover_cons] at hone
        omega

/-- Disjoint spans cover no cell twice. -/
theorem cover_le_one {bs : List Span} (h : bs.Pairwise Span.Disjoint) (p : Nat) :
    cover bs p ≤ 1 := by
  induction bs with
  | nil => simp
  | cons c cs ih =>
      obtain ⟨hc, hcs⟩ := List.pairwise_cons.mp h
      rw [cover_cons]
      by_cases hp : p ∈ c
      · have hzero : cover cs p = 0 := by
          by_contra hne
          obtain ⟨b, hb, hpb⟩ := exists_of_cover_pos (Nat.pos_of_ne_zero hne)
          exact hc b hb p hp hpb
        rw [if_pos hp, hzero]
      · rw [if_neg hp]
        exact ih hcs

/-- Two spans at different places of a tiling are disjoint. -/
theorem Tiles.pairwise_disjoint {bs : List Span} {a n : Nat} (h : Tiles bs a n) :
    bs.Pairwise Span.Disjoint := by
  apply pairwise_disjoint_of_cover_le
  intro p
  rw [h p]
  split <;> omega

/-- A cell of a span of the tiling is a cell of the interval. -/
theorem Tiles.subset {bs : List Span} {a n p : Nat} {b : Span} (h : Tiles bs a n) (hb : b ∈ bs)
    (hp : p ∈ b) : p ∈ (⟨a, n⟩ : Span) := by
  have hpos := cover_pos hb hp
  rw [h p] at hpos
  by_contra hc
  rw [if_neg hc] at hpos
  omega

/-- One span of a tiling is disjoint from all the others. -/
theorem Tiles.disjoint_of_mem {bs cs : List Span} {a n : Nat} {b c : Span} (h : Tiles bs a n)
    (hp : bs.Perm (b :: cs)) (hc : c ∈ cs) : b.Disjoint c :=
  (List.pairwise_cons.mp (h.perm hp).pairwise_disjoint).1 c hc

/-- A cell of the interval lies in one of the spans of the tiling. -/
theorem Tiles.exists_mem {bs : List Span} {a n p : Nat} (h : Tiles bs a n)
    (hp : p ∈ (⟨a, n⟩ : Span)) : ∃ b ∈ bs, p ∈ b := by
  apply exists_of_cover_pos
  rw [h p, if_pos hp]
  omega

/-- The number of cells of all spans together. -/
def total (bs : List Span) : Nat := (bs.map Span.len).sum

/-- No spans have no length. -/
@[simp] theorem total_nil : total [] = 0 := rfl

/-- The length of the spans, with one more. -/
@[simp] theorem total_cons (b : Span) (bs : List Span) : total (b :: bs) = b.len + total bs := rfl

/-- The length of the spans of two lists. -/
@[simp] theorem total_append (bs cs : List Span) : total (bs ++ cs) = total bs + total cs := by
  simp [total]

/-- The order of the spans does not matter for their length. -/
theorem total_perm {bs cs : List Span} (h : bs.Perm cs) : total bs = total cs :=
  (h.map _).sum_eq

end Ucore.Lib
