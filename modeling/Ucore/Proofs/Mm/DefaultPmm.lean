import Mathlib.Data.List.Perm.Basic
import Mathlib.Data.List.Pairwise
import Ucore.Mm.DefaultPmm

/-!
# `Ucore.Proofs.Mm.DefaultPmm`: the first-fit free list

`FreeArea.Inv s fs live a n` is the invariant of the first-fit manager: the free list is the ring of
the blocks `fs`, ascending and with a gap between any two, each block's head descriptor carries its
length and is the only kind of descriptor with `PG_property`, and `fs` and the client's spans `live`
tile the region.

`default_alloc_pages` keeps it (`defaultAllocPages_spec`). `default_free_pages` keeps it when the
freed block does not belong behind the last free block (`defaultFreePages_spec` under `NotLast`).
Behind the last block the insertion loop does not stop: it meets the block it has just added and
adds it once more, behind itself, which leaves `prev` of the new block naming the block itself. The
next allocation of that block does not unlink it.

## One release

The insertion loop walks over the blocks below the freed one (`insertLoop_eq`). Then the block may
be merged with the one in front of it and the one behind. Both merges join two blocks of the list
that touch, so both are `joined`, and `joined_shape` is about either. `FreeArea.Shape` is
`FreeArea.Inv` without the gaps, which is what holds between the insertion and the merges.

## Runs

`exec_inv` keeps the invariant over one call and `consistent_of_run` states what it means over a run
in which no block is freed behind the last free block (`NoTailInsert`). The condition is one on the
state in front of a call: the free list is not empty, and the block lies behind all of its blocks.
`tailInsert_hands_out_twice` is a run that does not meet it, at the end of which two live
allocations have the same pages.

The `_mono` lemmas let the fuel grow, so that a run may give each call its own.
-/

set_option autoImplicit false

namespace Ucore.Proofs.Mm

open Ucore.Lib
open Ucore.Libs
open Ucore.Mm

/-- The list nodes of a list of blocks. -/
abbrev nodes (fs : List Span) : List ListNode := fs.map fun b => .page b.start

/-- The shape of the manager's state, whatever the order of the free list: the list is
the ring of the blocks `fs`, each head descriptor carries its block's length, exactly the
head descriptors have `PG_property`, and `fs` and `live` tile the region. -/
structure FreeArea.Shape (s : FreeArea) (fs live : List Span) (a n : Nat) : Prop where
  ring : s.links.Ring freeListHead (nodes fs)
  tiles : Tiles (fs ++ live) a n
  lenPos : ∀ b ∈ fs ++ live, 0 < b.len
  property : ∀ b ∈ fs, (s.pages b.start).property = b.len
  flag : ∀ p ∈ (⟨a, n⟩ : Span), (s.pages p).flags.property = true ↔ ∃ b ∈ fs, b.start = p
  reserved : ∀ p ∈ (⟨a, n⟩ : Span), (s.pages p).flags.reserved = false
  nrFree : s.nrFree = total fs
  pageCount : total fs + total live = n
  small : n < 2 ^ 32

/-- Ascending, with at least one cell between any two blocks. -/
def Gapped (fs : List Span) : Prop := fs.Pairwise fun b c => b.stop < c.start

/-- The invariant of the first-fit manager. -/
structure FreeArea.Inv (s : FreeArea) (fs live : List Span) (a n : Nat) : Prop
    extends FreeArea.Shape s fs live a n where
  gapped : Gapped fs

namespace FreeArea.Shape

variable {s : FreeArea} {fs ys zs live : List Span} {b : Span} {a n : Nat}

/-- A block of the free list shares no page with any other block or live span. -/
theorem disjoint_rest (h : Shape s (ys ++ b :: zs) live a n) {c : Span}
    (hc : c ∈ ys ++ zs ++ live) : b.Disjoint c := by
  apply h.tiles.disjoint_of_mem _ hc
  simp

/-- A live span shares no page with any other block or live span. -/
theorem disjoint_live (h : Shape s fs live a n) {f c : Span} (hf : f ∈ live)
    (hc : c ∈ fs ++ live.erase f) : f.Disjoint c := by
  apply h.tiles.disjoint_of_mem _ hc
  exact (List.Perm.append_left fs (List.perm_cons_erase hf)).trans List.perm_middle

/-- A page strictly inside a free block heads no free block. -/
theorem start_ne_of_mem (h : Shape s (ys ++ b :: zs) live a n) {p : Nat} (hp : p ∈ b)
    {c : Span} (hc : c ∈ ys ++ zs) : c.start ≠ p := by
  intro hcp
  have hpos := h.lenPos c (by
    simp only [List.mem_append, List.mem_cons] at hc ⊢; tauto)
  apply h.disjoint_rest (List.mem_append_left live hc) p hp
  simp only [Span.mem_iff]
  omega

/-- A free block is not longer than all of them. -/
theorem len_le (h : Shape s fs live a n) (hb : b ∈ fs) : b.len ≤ total fs := by
  obtain ⟨ys, zs, rfl⟩ := List.append_of_mem hb
  simp only [total_append, total_cons]
  omega

end FreeArea.Shape

/-! ### The loops over descriptors -/

/-- `default_init_memmap` clears the `n` descriptors from `p` on and no other. -/
theorem initMemmapLoop_ok : ∀ (n p : Nat) (pages pages' : Pages),
    initMemmapLoop n p pages = .ok pages' →
      ∀ q, pages' q = if q ∈ (⟨p, n⟩ : Span) then ⟨0, .zero, 0⟩ else pages q := by
  intro n
  induction n with
  | zero =>
      intro p pages pages' h q
      cases h
      rw [if_neg]
      simp only [Span.mem_iff]
      omega
  | succ n ih =>
      intro p pages pages' h q
      rw [initMemmapLoop] at h
      split at h
      · rw [ih _ _ _ h q]
        by_cases hq : q = p
        · subst hq
          have hout : q ∉ (⟨q + 1, n⟩ : Span) := by simp only [Span.mem_iff]; omega
          have hin : q ∈ (⟨q, n + 1⟩ : Span) := by simp only [Span.mem_iff]; omega
          simp [hout, hin, Pages.setPageRef, Pages.setFlags, Pages.setProperty, uint]
        · have hiff : q ∈ (⟨p + 1, n⟩ : Span) ↔ q ∈ (⟨p, n + 1⟩ : Span) := by
            simp only [Span.mem_iff]; omega
          simp only [hiff]
          simp [Pages.setPageRef, Pages.setFlags, Pages.setProperty, hq]
      · cases h

/-- `default_free_pages` clears the flags of `n` descriptors from `p` on, after checking
that neither bit is set, and keeps every `property`. -/
theorem freePagesLoop_ok : ∀ (n p : Nat) (pages : Pages),
    (∀ q ∈ (⟨p, n⟩ : Span), (pages q).flags = .zero) →
      ∃ pages', freePagesLoop n p pages = .ok pages' ∧
        ∀ q, (pages' q).flags = (pages q).flags ∧
          (pages' q).property = (pages q).property := by
  intro n
  induction n with
  | zero => intro p pages _; exact ⟨pages, rfl, fun q => ⟨rfl, rfl⟩⟩
  | succ n ih =>
      intro p pages h
      have hp := h p (by simp only [Span.mem_iff]; omega)
      have hstep : ∀ q, (((pages.setFlags p .zero).setPageRef p 0) q).flags = (pages q).flags := by
        intro q
        rw [Pages.setPageRef_flags, Pages.setFlags_flags]
        split
        · rename_i hq; rw [hq, hp]
        · rfl
      obtain ⟨pages', hok, heq⟩ := ih (p + 1) ((pages.setFlags p .zero).setPageRef p 0) (by
        intro q hq
        rw [hstep]
        apply h
        simp only [Span.mem_iff] at hq ⊢
        omega)
      refine ⟨pages', ?_, fun q => ?_⟩
      · rw [freePagesLoop, hp]
        exact hok
      · obtain ⟨h1, h2⟩ := heq q
        exact ⟨h1.trans (hstep q), by rw [h2]; simp⟩

/-! ### The search for the first fit -/

/-- From the node in front of the part `zs`, the search finds the first block of `zs`
that is large enough. -/
theorem firstFitLoop_eq (pages : Pages) (l : Links ListNode) (n : Nat) :
    ∀ (zs ys : List Span) (fuel : Nat), l.Ring freeListHead (nodes (ys ++ zs)) →
      zs.length < fuel →
      firstFitLoop pages l n fuel ((nodes ys).getLastD freeListHead)
        = .ok ((zs.find? fun b => n ≤ (pages b.start).property).map Span.start) := by
  intro zs
  induction zs with
  | nil =>
      intro ys fuel hr hf
      cases fuel with
      | zero => exact absurd hf (by simp)
      | succ fuel =>
          rw [nodes, List.map_append] at hr
          rw [firstFitLoop, hr.next_getLastD]
          rfl
  | cons z zs ih =>
      intro ys fuel hr hf
      cases fuel with
      | zero => exact absurd hf (by simp)
      | succ fuel =>
          have hr' := hr
          rw [nodes, List.map_append] at hr
          rw [firstFitLoop, hr.next_getLastD]
          show (if n ≤ (pages z.start).property then Except.ok (some z.start)
            else firstFitLoop pages l n fuel (.page z.start)) = _
          by_cases hz : n ≤ (pages z.start).property
          · simp [hz]
          · rw [if_neg hz, List.find?_cons_of_neg (by simpa using hz)]
            have hnext := ih (ys ++ [z]) fuel (by simpa using hr') (by
              simp only [List.length_cons] at hf; omega)
            simpa [nodes] using hnext

/-! ### Allocation -/

/-- What stays free of the block `b` when its first `k` pages are taken. -/
def remainder (b : Span) (k : Nat) : List Span :=
  if k < b.len then [⟨b.start + k, b.len - k⟩] else []

/-- A block is covered by its first pages and by the remainder. -/
theorem cover_remainder {b : Span} {k : Nat} (hk : k ≤ b.len) (p : Nat) :
    cover [b] p = cover [⟨b.start, k⟩] p + cover (remainder b k) p := by
  unfold remainder
  split
  · have h := cover_split b.start k (b.len - k) p
    rwa [Nat.add_sub_cancel' hk] at h
  · have hlen : k = b.len := by omega
    simp [hlen]

/-- How long the remainder is. -/
theorem total_remainder {b : Span} {k : Nat} (hk : k ≤ b.len) :
    total (remainder b k) = b.len - k := by
  unfold remainder
  split
  · simp
  · simp only [total_nil]; omega

/-- The remainder is one block, when there is one. -/
theorem mem_remainder {b c : Span} {k : Nat} (hc : c ∈ remainder b k) :
    c = ⟨b.start + k, b.len - k⟩ ∧ k < b.len := by
  unfold remainder at hc
  split at hc
  · exact ⟨by simpa using hc, by assumption⟩
  · simp at hc

/-- Taking the first `k` pages of a free block. The block leaves the list, and what stays
free of it takes its place. -/
theorem takePages_shape {s : FreeArea} {ys zs live : List Span} {b : Span} {a n k : Nat}
    (h : FreeArea.Shape s (ys ++ b :: zs) live a n) (hk0 : 0 < k) (hk : k ≤ b.len) :
    FreeArea.Shape (takePages s b.start k) (ys ++ (remainder b k ++ zs))
      (⟨b.start, k⟩ :: live) a n := by
  have hb : b ∈ ys ++ b :: zs := by simp
  have hprop : (s.pages b.start).property = b.len := h.property b hb
  have hle : b.len ≤ total (ys ++ b :: zs) := h.len_le hb
  have hsmall : b.len < 2 ^ 32 := by
    have := h.pageCount; have := h.small; omega
  have hring := h.ring
  rw [nodes, List.map_append, List.map_cons] at hring
  have hprev : s.links.prev (.page b.start) = (nodes ys).getLastD freeListHead := hring.mid.2
  have hdel := ring_listDel hring
  have hcut : b.start + k ∈ b ∨ ¬ k < b.len := by
    simp only [Span.mem_iff]; omega
  constructor
  case ring =>
    unfold takePages remainder
    rw [hprop]
    split
    · -- The remainder is linked in behind the old predecessor of the block.
      rename_i hlt
      have hfresh : FreeNode.page (b.start + k) ∉ freeListHead :: (nodes ys ++ nodes zs) := by
        simp only [List.mem_cons, List.mem_append, List.mem_map, not_or]
        have hin : b.start + k ∈ b := by simp only [Span.mem_iff]; omega
        refine ⟨by simp [freeListHead], ?_, ?_⟩
        · rintro ⟨c, hc, he⟩
          exact h.start_ne_of_mem hin (List.mem_append_left zs hc) (by simpa using he)
        · rintro ⟨c, hc, he⟩
          exact h.start_ne_of_mem hin (List.mem_append_right ys hc) (by simpa using he)
      have hadd := ring_listAdd hdel hfresh
      rw [hprev]
      simpa [nodes] using hadd
    · simpa [nodes] using hdel
  -- Each page is in one block still: what is handed out and the remainder are the old block.
  case tiles =>
    intro p
    rw [← h.tiles p]
    have hcov := cover_remainder hk p
    have hb := cover_cons_eq_add b zs p
    have hl := cover_cons_eq_add ⟨b.start, k⟩ live p
    simp only [cover_append]
    omega
  case lenPos =>
    intro c hc
    simp only [List.mem_append, List.mem_cons] at hc
    rcases hc with (hc | hc | hc) | rfl | hc
    · exact h.lenPos c (by simp [hc])
    · obtain ⟨rfl, hlt⟩ := mem_remainder hc
      show 0 < b.len - k
      omega
    · exact h.lenPos c (by simp [hc])
    · exact hk0
    · exact h.lenPos c (by simp [hc])
  case property =>
    intro c hc
    have hother : c ∈ ys ++ zs → (s.pages c.start).property = c.len := fun hc =>
      h.property c (by simp only [List.mem_append, List.mem_cons] at hc ⊢; tauto)
    unfold takePages
    rw [hprop]
    split
    · rename_i hlt
      have hin : b.start + k ∈ b := by simp only [Span.mem_iff]; omega
      simp only [Pages.clearPageProperty_property, Pages.setPageProperty_property,
        Pages.setProperty_property]
      simp only [remainder, if_pos hlt, List.mem_append, List.mem_singleton] at hc
      rcases hc with hc | rfl | hc
      -- The header of the remainder is written inside of the old block, where no other block
      -- begins.
      · rw [if_neg (h.start_ne_of_mem hin (List.mem_append_left zs hc))]
        exact hother (List.mem_append_left zs hc)
      · have hval : uint (b.len - k) = b.len - k := uint_of_lt (by omega)
        rw [if_pos rfl]
        exact hval
      · rw [if_neg (h.start_ne_of_mem hin (List.mem_append_right ys hc))]
        exact hother (List.mem_append_right ys hc)
    · rename_i hlt
      simp only [Pages.clearPageProperty_property]
      simp only [remainder, if_neg hlt, List.nil_append] at hc
      exact hother hc
  case flag =>
    intro p hp
    have hb0 : b.start ∈ b := by
      have := h.lenPos b (by simp)
      simp only [Span.mem_iff]; omega
    -- Before the call the heads were those of `ys`, of `b` and of `zs`.
    have hold := h.flag p hp
    simp only [List.mem_append, List.mem_cons] at hold
    have hne : ∀ c ∈ ys ++ zs, c.start ≠ b.start := fun c hc => h.start_ne_of_mem hb0 hc
    unfold takePages
    rw [hprop]
    split
    · rename_i hlt
      simp only [Pages.clearPageProperty_flag, Pages.setPageProperty_flag,
        Pages.setProperty_flags, hold, remainder, if_pos hlt, List.mem_append,
        List.mem_singleton]
      constructor
      · rintro ⟨hpb, hp | ⟨c, (hc | rfl | hc), hcp⟩⟩
        · exact ⟨_, Or.inr (Or.inl rfl), hp.symm⟩
        · exact ⟨c, Or.inl hc, hcp⟩
        · exact absurd hcp.symm hpb
        · exact ⟨c, Or.inr (Or.inr hc), hcp⟩
      · rintro ⟨c, (hc | rfl | hc), hcp⟩
        · exact ⟨hcp ▸ hne c (by simp [hc]), Or.inr ⟨c, Or.inl hc, hcp⟩⟩
        · have hcp' : b.start + k = p := hcp
          exact ⟨by omega, Or.inl hcp'.symm⟩
        · exact ⟨hcp ▸ hne c (by simp [hc]), Or.inr ⟨c, Or.inr (Or.inr hc), hcp⟩⟩
    · rename_i hlt
      simp only [Pages.clearPageProperty_flag, hold, remainder, if_neg hlt, List.mem_append,
        List.not_mem_nil, false_or]
      constructor
      · rintro ⟨hpb, c, (hc | rfl | hc), hcp⟩
        · exact ⟨c, Or.inl hc, hcp⟩
        · exact absurd hcp.symm hpb
        · exact ⟨c, Or.inr hc, hcp⟩
      · rintro ⟨c, (hc | hc), hcp⟩
        · exact ⟨hcp ▸ hne c (by simp [hc]), c, Or.inl hc, hcp⟩
        · exact ⟨hcp ▸ hne c (by simp [hc]), c, Or.inr (Or.inr hc), hcp⟩
  case reserved =>
    intro p hp
    have hold := h.reserved p hp
    unfold takePages
    rw [hprop]
    split <;> simpa using hold
  -- `nr_free -= n` does not wrap, since the block that was found is counted in it.
  case nrFree =>
    have hnr := h.nrFree
    have hcount := h.pageCount
    have hsm := h.small
    have hrem := total_remainder hk
    have hval : (takePages s b.start k).nrFree = uint (s.nrFree - k) := by
      unfold takePages
      split <;> rfl
    rw [hval, hnr, uint_of_lt (by omega)]
    simp only [total_append, total_cons] at hle ⊢
    omega
  case pageCount =>
    have hcount := h.pageCount
    have hrem := total_remainder hk
    simp only [total_append, total_cons] at hcount ⊢
    omega
  case small => exact h.small

/-- The remainder of a block keeps the gaps on both sides. -/
theorem gapped_remainder {ys zs : List Span} {b : Span} {k : Nat} (h : Gapped (ys ++ b :: zs)) :
    Gapped (ys ++ (remainder b k ++ zs)) := by
  simp only [Gapped, List.pairwise_append, List.pairwise_cons, List.mem_cons, List.mem_append]
    at h ⊢
  obtain ⟨hys, ⟨hbz, hzs⟩, hyz⟩ := h
  refine ⟨hys, ⟨?_, hzs, ?_⟩, ?_⟩
  · unfold remainder
    split <;> simp
  · intro c hc z hz
    obtain ⟨rfl, hlt⟩ := mem_remainder hc
    have := hbz z hz
    simp only [Span.stop] at this ⊢
    omega
  · rintro y hy c (hc | hc)
    · obtain ⟨rfl, -⟩ := mem_remainder hc
      have := hyz y hy b (Or.inl rfl)
      simp only [Span.stop] at this ⊢
      omega
    · exact hyz y hy c (Or.inr hc)

/-- `default_alloc_pages` takes the first block that is large enough, and returns `NULL`
exactly when no block is. -/
theorem defaultAllocPages_spec {s : FreeArea} {fs live : List Span} {a n k fuel : Nat}
    (h : FreeArea.Inv s fs live a n) (hk : 0 < k) (hf : fs.length < fuel) :
    (defaultAllocPages fuel s k = .ok (none, s) ∧ ∀ b ∈ fs, b.len < k) ∨
    ∃ ys b zs, fs = ys ++ b :: zs ∧ k ≤ b.len ∧ (∀ y ∈ ys, y.len < k) ∧
      defaultAllocPages fuel s k = .ok (some b.start, takePages s b.start k) ∧
      FreeArea.Inv (takePages s b.start k) (ys ++ (remainder b k ++ zs))
        (⟨b.start, k⟩ :: live) a n := by
  have hk0 : k ≠ 0 := by omega
  unfold defaultAllocPages
  rw [if_neg hk0]
  by_cases hfree : s.nrFree < k
  · left
    rw [if_pos hfree]
    refine ⟨rfl, fun b hb => ?_⟩
    have := h.len_le hb
    have := h.nrFree
    omega
  · rw [if_neg hfree]
    have hfit := firstFitLoop_eq s.pages s.links k fs [] fuel (by simpa using h.ring) hf
    have hstart : (nodes []).getLastD freeListHead = freeListHead := rfl
    rw [hstart] at hfit
    rw [hfit]
    cases hfind : fs.find? fun b => k ≤ (s.pages b.start).property with
    | none =>
        left
        refine ⟨rfl, fun b hb => ?_⟩
        have hno := List.find?_eq_none.mp hfind b hb
        rw [h.property b hb] at hno
        simpa using hno
    | some b =>
        right
        obtain ⟨hb, ys, zs, rfl, hys⟩ := List.find?_eq_some_iff_append.mp hfind
        rw [h.property b (by simp)] at hb
        have hkb : k ≤ b.len := by simpa using hb
        refine ⟨ys, b, zs, rfl, hkb, fun y hy => ?_, rfl,
          takePages_shape h.toShape hk hkb, gapped_remainder h.gapped⟩
        have hno := hys y hy
        rw [h.property y (by simp [hy])] at hno
        simpa using hno

/-! ### Freeing -/

/-- The block `base` does not belong behind the last block of a free list that is not
empty. The other case is the one the insertion loop gets wrong. -/
def NotLast (fs : List Span) (base : Nat) : Prop := fs = [] ∨ ∃ b ∈ fs, base < b.start

/-- From the node in front of the part `ws`, whose blocks are all below `base`, the
insertion loop passes over `ws` and links `base` in before the first block above it. -/
theorem insertLoop_eq (l : Links ListNode) (base : Nat) :
    ∀ (ws ys : List Span) (z : Span) (zs : List Span) (fuel : Nat),
      l.Ring freeListHead (nodes (ys ++ ws ++ z :: zs)) → (∀ w ∈ ws, w.start ≤ base) →
      base < z.start → ws.length < fuel →
      insertLoop base fuel l ((nodes ys).getLastD freeListHead)
        = .ok (listAddBefore l (.page z.start) (.page base)) := by
  intro ws
  induction ws with
  | nil =>
      intro ys z zs fuel hr _ hz hf
      cases fuel with
      | zero => exact absurd hf (by simp)
      | succ fuel =>
          rw [List.append_nil, nodes, List.map_append] at hr
          rw [insertLoop, hr.next_getLastD]
          show (if base < z.start then _ else _) = _
          rw [if_pos hz]
  | cons w ws ih =>
      intro ys z zs fuel hr hw hz hf
      cases fuel with
      | zero => exact absurd hf (by simp)
      | succ fuel =>
          have hr' : l.Ring freeListHead (nodes ((ys ++ [w]) ++ ws ++ z :: zs)) := by
            simpa using hr
          have hnext := ih (ys ++ [w]) z zs fuel hr' (fun x hx => hw x (by simp [hx])) hz (by
            simp only [List.length_cons] at hf; omega)
          have hwle := hw w (by simp)
          -- `w` is not the last block: the block `z` comes behind it.
          have hnot : l.next (.page w.start) ≠ freeListHead := by
            have hmid : l.Ring freeListHead
                (nodes ys ++ .page w.start :: (nodes (ws ++ z :: zs))) := by
              simpa [nodes] using hr
            rw [hmid.mid.1]
            cases ws <;> simp [nodes, freeListHead]
          rw [nodes, List.append_assoc, List.map_append] at hr
          rw [insertLoop, hr.next_getLastD]
          show (if base < w.start then _ else if l.next (.page w.start) = freeListHead then _
            else insertLoop base fuel l (.page w.start)) = _
          rw [if_neg (by omega), if_neg hnot]
          simpa [nodes] using hnext

/-- The ascending list of blocks cut at the page `base`. -/
theorem exists_cut {fs : List Span} {base : Nat} (h : Gapped fs) (hb : ∃ b ∈ fs, base < b.start) :
    ∃ ws z zs, fs = ws ++ z :: zs ∧ (∀ w ∈ ws, w.start ≤ base) ∧ base < z.start ∧
      ∀ x ∈ zs, base < x.start := by
  induction fs with
  | nil => obtain ⟨b, hb, -⟩ := hb; cases hb
  | cons f fs ih =>
      obtain ⟨hf, hfs⟩ := List.pairwise_cons.mp h
      by_cases hlt : base < f.start
      · refine ⟨[], f, fs, rfl, by simp, hlt, fun x hx => ?_⟩
        have := hf x hx
        simp only [Span.stop] at this
        omega
      · have hb' : ∃ b ∈ fs, base < b.start := by
          obtain ⟨b, hb, hlt'⟩ := hb
          rcases List.mem_cons.mp hb with rfl | hb
          · exact absurd hlt' hlt
          · exact ⟨b, hb, hlt'⟩
        obtain ⟨ws, z, zs, rfl, hws, hz, hzs⟩ := ih hfs hb'
        refine ⟨f :: ws, z, zs, rfl, fun w hw => ?_, hz, hzs⟩
        rcases List.mem_cons.mp hw with rfl | hw
        · omega
        · exact hws w hw

/-- The insertion of a block that is not last puts it at its place in address order. -/
theorem insertByAddress_eq {l : Links ListNode} {fs : List Span} {base fuel : Nat}
    (hr : l.Ring freeListHead (nodes fs)) (hg : Gapped fs) (hn : NotLast fs base)
    (hfresh : ∀ b ∈ fs, b.start ≠ base) (hf : fs.length < fuel) :
    ∃ ys zs l', fs = ys ++ zs ∧ (∀ y ∈ ys, y.start < base) ∧ (∀ z ∈ zs, base < z.start) ∧
      insertByAddress fuel l base = .ok l' ∧
      l'.Ring freeListHead (nodes ys ++ .page base :: nodes zs) := by
  have hnode : ∀ gs : List Span, (∀ b ∈ gs, b.start ≠ base) →
      FreeNode.page base ∉ freeListHead :: nodes gs := by
    intro gs hgs
    simp only [List.mem_cons, List.mem_map, not_or]
    refine ⟨by simp [freeListHead], ?_⟩
    rintro ⟨c, hc, he⟩
    exact hgs c hc (by simpa using he)
  unfold insertByAddress
  by_cases hnil : fs = []
  · subst hnil
    have hempty : listEmpty l freeListHead = true := (listEmpty_iff hr).mpr rfl
    rw [hempty]
    exact ⟨[], [], _, rfl, by simp, by simp, rfl, ring_listAdd_head hr (by simp [freeListHead])⟩
  · have hne : nodes fs ≠ [] := by simpa [nodes] using hnil
    have hempty : ¬ listEmpty l freeListHead = true := fun e => hne ((listEmpty_iff hr).mp e)
    rw [if_neg hempty]
    obtain ⟨ws, z, zs, rfl, hws, hz, hzs⟩ := exists_cut hg (hn.resolve_left hnil)
    have hloop := insertLoop_eq l base ws [] z zs fuel (by simpa using hr) hws hz (by
      simp only [List.length_append] at hf; omega)
    refine ⟨ws, z :: zs, _, rfl, fun y hy => ?_, fun x hx => ?_, hloop, ?_⟩
    · have := hws y hy
      have := hfresh y (by simp [hy])
      omega
    · rcases List.mem_cons.mp hx with rfl | hx
      · exact hz
      · exact hzs x hx
    · have hr' : l.Ring freeListHead (nodes ws ++ nodes (z :: zs)) := by
        simpa [nodes] using hr
      exact ring_listAddBefore hr' (by
        have := hnode _ hfresh
        simpa [nodes] using this)

/-- The state after the block `z` is merged into the block `y` right in front of it. Both
merges of `default_free_pages` are this. -/
def joined (s : FreeArea) (y z : Nat) : FreeArea :=
  { s with
      pages := (s.pages.setProperty y
        ((s.pages y).property + (s.pages z).property)).clearPageProperty z
      links := listDel s.links (.page z) }

/-- Two blocks of the list that touch are one block of the joined list. -/
theorem joined_shape {s : FreeArea} {ys zs live : List Span} {y z : Span} {a n : Nat}
    (h : FreeArea.Shape s (ys ++ y :: z :: zs) live a n) (hyz : y.stop = z.start) :
    FreeArea.Shape (joined s y.start z.start) (ys ++ ⟨y.start, y.len + z.len⟩ :: zs) live a n := by
  have hz : FreeArea.Shape s ((ys ++ [y]) ++ z :: zs) live a n := by simpa using h
  -- Both blocks have a page, and no other block begins in it.
  have hy0 : y.start ∈ y := by
    have := h.lenPos y (by simp)
    simp only [Span.mem_iff]; omega
  have hz0 : z.start ∈ z := by
    have := h.lenPos z (by simp)
    simp only [Span.mem_iff]; omega
  have hney : ∀ c ∈ ys ++ z :: zs, c.start ≠ y.start := fun c hc => h.start_ne_of_mem hy0 hc
  have hnez : ∀ c ∈ ys ++ [y] ++ zs, c.start ≠ z.start := fun c hc => hz.start_ne_of_mem hz0 hc
  have hpy := h.property y (by simp)
  have hpz := h.property z (by simp)
  have htot := h.pageCount
  have hsm := h.small
  simp only [total_append, total_cons] at htot
  constructor
  case ring =>
    have hr := hz.ring
    rw [nodes, List.map_append, List.map_cons] at hr
    simpa [nodes, joined] using ring_listDel hr
  -- Every page is still covered once: the two blocks that touch cover what the joined one covers.
  case tiles =>
    intro p
    rw [← h.tiles p]
    have h1 := cover_split y.start y.len z.len p
    have h2 := cover_cons_eq_add ⟨y.start, y.len + z.len⟩ zs p
    have h3 := cover_cons_eq_add y (z :: zs) p
    have h4 := cover_cons_eq_add z zs p
    have h5 : cover [⟨y.start + y.len, z.len⟩] p = cover [z] p := by
      rw [show (⟨y.start + y.len, z.len⟩ : Span) = z from by rw [← Span.stop, hyz]]
    have h6 : cover [⟨y.start, y.len⟩] p = cover [y] p := rfl
    simp only [cover_append]
    omega
  case lenPos =>
    intro c hc
    simp only [List.mem_append, List.mem_cons] at hc
    rcases hc with (hc | rfl | hc) | hc
    · exact h.lenPos c (by simp [hc])
    · have := h.lenPos y (by simp)
      show 0 < y.len + z.len
      omega
    · exact h.lenPos c (by simp [hc])
    · exact h.lenPos c (by simp [hc])
  -- The sum of the two lengths does not overflow `unsigned int`, since the pages are fewer.
  case property =>
    intro c hc
    simp only [joined, Pages.clearPageProperty_property, Pages.setProperty_property]
    simp only [List.mem_append, List.mem_cons] at hc
    rcases hc with hc | rfl | hc
    · rw [if_neg (hney c (by simp [hc]))]
      exact h.property c (by simp [hc])
    · have hval : uint (y.len + z.len) = y.len + z.len := uint_of_lt (by omega)
      rw [if_pos rfl, hpy, hpz, hval]
    · rw [if_neg (hney c (by simp [hc]))]
      exact h.property c (by simp [hc])
  -- The flag goes from the second block, which is no head any more, and stays on the others.
  case flag =>
    intro p hp
    have hold := h.flag p hp
    simp only [List.mem_append, List.mem_cons] at hold
    simp only [joined, Pages.clearPageProperty_flag, Pages.setProperty_flags, hold,
      List.mem_append, List.mem_cons]
    constructor
    · rintro ⟨hpz, c, (hc | rfl | rfl | hc), hcp⟩
      · exact ⟨c, Or.inl hc, hcp⟩
      · exact ⟨_, Or.inr (Or.inl rfl), hcp⟩
      · exact absurd hcp.symm hpz
      · exact ⟨c, Or.inr (Or.inr hc), hcp⟩
    · rintro ⟨c, (hc | rfl | hc), hcp⟩
      · exact ⟨hcp ▸ hnez c (by simp [hc]), c, Or.inl hc, hcp⟩
      · exact ⟨hcp ▸ hnez y (by simp), y, Or.inr (Or.inl rfl), hcp⟩
      · exact ⟨hcp ▸ hnez c (by simp [hc]), c, Or.inr (Or.inr (Or.inr hc)), hcp⟩
  case reserved =>
    intro p hp
    simpa [joined] using h.reserved p hp
  case nrFree =>
    have hnr := h.nrFree
    simp only [total_append, total_cons] at hnr ⊢
    show s.nrFree = _
    omega
  case pageCount =>
    simp only [total_append, total_cons]
    omega
  case small => exact hsm

/-- The merge with the block in front. `f` is the block just inserted. -/
theorem mergePrev_spec {s : FreeArea} {ys zs live : List Span} {f : Span} {a n : Nat}
    (h : FreeArea.Shape s (ys ++ f :: zs) live a n) (hys : Gapped ys)
    (hle : ∀ y ∈ ys, y.stop ≤ f.start) :
    ∃ ys' f' s', mergePrev s f.start = (s', f'.start) ∧
      FreeArea.Shape s' (ys' ++ f' :: zs) live a n ∧ Gapped ys' ∧
      (∀ y ∈ ys', y.stop < f'.start) ∧ f'.stop = f.stop := by
  have hr := h.ring
  rw [nodes, List.map_append, List.map_cons] at hr
  have hprev := hr.mid.2
  unfold mergePrev
  rw [hprev]
  cases ys using List.reverseRecOn with
  | nil => exact ⟨[], f, s, rfl, h, hys, by simp, rfl⟩
  | append_singleton ys y =>
      have hpy := h.property y (by simp)
      simp only [List.map_append, List.map_cons, List.map_nil, List.getLastD_concat, hpy]
      simp only [Gapped, List.pairwise_append, List.pairwise_cons, List.mem_singleton] at hys
      obtain ⟨hgap, -, hlast⟩ := hys
      have hyle := hle y (by simp)
      by_cases hadj : y.start + y.len = f.start
      · rw [if_pos hadj]
        have h' : FreeArea.Shape s (ys ++ y :: f :: zs) live a n := by simpa using h
        refine ⟨ys, ⟨y.start, y.len + f.len⟩, joined s y.start f.start, ?_,
          joined_shape h' hadj, hgap, fun x hx => hlast x hx y rfl, ?_⟩
        · rw [joined, hpy]
        · simp only [Span.stop]
          omega
      · rw [if_neg hadj]
        refine ⟨ys ++ [y], f, s, rfl, h, ?_, fun x hx => ?_, rfl⟩
        · simp only [Gapped, List.pairwise_append, List.pairwise_cons, List.mem_singleton]
          exact ⟨hgap, by simp, hlast⟩
        · rcases List.mem_append.mp hx with hx | hx
          · have h1 := hlast x hx y rfl
            simp only [Span.stop] at h1 hyle ⊢
            omega
          · rw [List.mem_singleton.mp hx]
            simp only [Span.stop] at hyle ⊢
            omega

/-- The merge with the block behind. -/
theorem mergeNext_spec {s : FreeArea} {ys zs live : List Span} {f : Span} {a n : Nat}
    (h : FreeArea.Shape s (ys ++ f :: zs) live a n) (hzs : Gapped zs)
    (hle : ∀ z ∈ zs, f.stop ≤ z.start) :
    ∃ f' zs', FreeArea.Shape (mergeNext s f.start) (ys ++ f' :: zs') live a n ∧ Gapped zs' ∧
      (∀ z ∈ zs', f'.stop < z.start) ∧ f'.start = f.start := by
  have hr := h.ring
  rw [nodes, List.map_append, List.map_cons] at hr
  have hnext := hr.mid.1
  have hpf := h.property f (by simp)
  unfold mergeNext
  rw [hnext]
  cases zs with
  | nil => exact ⟨f, [], h, hzs, by simp, rfl⟩
  | cons z zs =>
      obtain ⟨hz, hgap⟩ := List.pairwise_cons.mp hzs
      simp only [List.map_cons, List.headD_cons, hpf]
      have hzle := hle z (by simp)
      by_cases hadj : f.start + f.len = z.start
      · rw [if_pos hadj]
        have hj := joined_shape h hadj
        rw [joined, hpf] at hj
        refine ⟨⟨f.start, f.len + z.len⟩, zs, hj, hgap, fun x hx => ?_, rfl⟩
        have h1 := hz x hx
        simp only [Span.stop] at h1 ⊢
        omega
      · rw [if_neg hadj]
        refine ⟨f, z :: zs, h, hzs, fun x hx => ?_, rfl⟩
        rcases List.mem_cons.mp hx with rfl | hx
        · simp only [Span.stop] at hzle ⊢
          omega
        · have h1 := hz x hx
          have hzpos := h.lenPos z (by simp)
          simp only [Span.stop] at h1 hzle ⊢
          omega

/-- `default_free_pages` keeps the invariant when the freed block is not last. -/
theorem defaultFreePages_spec {s : FreeArea} {fs live : List Span} {f : Span} {a n fuel : Nat}
    (h : FreeArea.Inv s fs live a n) (hf : f ∈ live) (hn : NotLast fs f.start)
    (hfuel : fs.length < fuel) :
    ∃ s' fs', defaultFreePages fuel s f.start f.len = .ok s' ∧
      FreeArea.Inv s' fs' (live.erase f) a n := by
  have hlen := h.lenPos f (by simp [hf])
  have hfin : f.start ∈ f := by simp only [Span.mem_iff]; omega
  have hdis : ∀ c ∈ fs ++ live.erase f, f.Disjoint c := fun c hc => h.disjoint_live hf hc
  have hfresh : ∀ b ∈ fs, b.start ≠ f.start := by
    intro b hb he
    have := h.lenPos b (by simp [hb])
    exact hdis b (by simp [hb]) f.start hfin (by simp only [Span.mem_iff]; omega)
  have hregion : ∀ q ∈ f, q ∈ (⟨a, n⟩ : Span) := fun q hq => h.tiles.subset (by simp [hf]) hq
  -- No descriptor of the freed span is reserved or heads a free block.
  have hzero : ∀ q ∈ f, (s.pages q).flags = .zero := by
    intro q hq
    have h1 := h.reserved q (hregion q hq)
    have h2 : ¬ (s.pages q).flags.property = true := by
      rw [h.flag q (hregion q hq)]
      rintro ⟨b, hb, he⟩
      have := h.lenPos b (by simp [hb])
      exact hdis b (by simp [hb]) q hq (by simp only [Span.mem_iff]; omega)
    cases hfl : (s.pages q).flags with
    | mk r p =>
        rw [hfl] at h1 h2
        simp only [Bool.not_eq_true] at h2
        simp only at h1
        rw [h1, h2]
        rfl
  obtain ⟨pages', hloop, hpages⟩ := freePagesLoop_ok f.len f.start s.pages hzero
  obtain ⟨ys, zs, l', rfl, hys, hzs, hins, hring⟩ :=
    insertByAddress_eq h.ring h.gapped hn hfresh hfuel
  have hcount := h.pageCount
  have hsm := h.small
  have htot : total live = f.len + total (live.erase f) := by
    rw [total_perm (List.perm_cons_erase hf), total_cons]
  -- The state between the insertion and the merges.
  have hmid : FreeArea.Shape
      { pages := (pages'.setProperty f.start f.len).setPageProperty f.start
        links := l'
        nrFree := uint (s.nrFree + f.len) } (ys ++ f :: zs) (live.erase f) a n := by
    constructor
    case ring => simpa [nodes] using hring
    case tiles =>
      apply h.tiles.perm
      have h1 : (ys ++ zs ++ live).Perm (ys ++ zs ++ f :: live.erase f) :=
        (List.perm_cons_erase hf).append_left _
      have h2 : (ys ++ zs ++ f :: live.erase f).Perm (f :: (ys ++ zs ++ live.erase f)) :=
        List.perm_middle
      have h3 : (ys ++ f :: (zs ++ live.erase f)).Perm (f :: (ys ++ (zs ++ live.erase f))) :=
        List.perm_middle
      rw [← List.append_assoc, ← List.cons_append, ← List.append_assoc] at h3
      exact (h1.trans h2).trans h3.symm
    case lenPos =>
      intro c hc
      simp only [List.mem_append, List.mem_cons] at hc
      rcases hc with (hc | rfl | hc) | hc
      · exact h.lenPos c (by simp [hc])
      · exact hlen
      · exact h.lenPos c (by simp [hc])
      · exact h.lenPos c (by simp [List.mem_of_mem_erase hc])
    case property =>
      intro c hc
      simp only [Pages.setPageProperty_property, Pages.setProperty_property]
      simp only [List.mem_append, List.mem_cons] at hc
      rcases hc with hc | rfl | hc
      · rw [if_neg (hfresh c (by simp [hc])), (hpages _).2]
        exact h.property c (by simp [hc])
      · rw [if_pos rfl]
        exact uint_of_lt (by omega)
      · rw [if_neg (hfresh c (by simp [hc])), (hpages _).2]
        exact h.property c (by simp [hc])
    case flag =>
      intro p hp
      have hold := h.flag p hp
      simp only [List.mem_append] at hold
      simp only [Pages.setPageProperty_flag, Pages.setProperty_flags, (hpages p).1, hold,
        List.mem_append, List.mem_cons]
      constructor
      · rintro (hpf | ⟨c, (hc | hc), hcp⟩)
        · exact ⟨f, Or.inr (Or.inl rfl), hpf.symm⟩
        · exact ⟨c, Or.inl hc, hcp⟩
        · exact ⟨c, Or.inr (Or.inr hc), hcp⟩
      · rintro ⟨c, (hc | rfl | hc), hcp⟩
        · exact Or.inr ⟨c, Or.inl hc, hcp⟩
        · exact Or.inl hcp.symm
        · exact Or.inr ⟨c, Or.inr hc, hcp⟩
    case reserved =>
      intro p hp
      simp only [Pages.setPageProperty_reserved, Pages.setProperty_flags, (hpages p).1]
      exact h.reserved p hp
    case nrFree =>
      have hnr := h.nrFree
      simp only [total_append, total_cons] at hnr hcount ⊢
      show uint (s.nrFree + f.len) = _
      rw [uint_of_lt (by omega)]
      omega
    case pageCount =>
      simp only [total_append, total_cons] at hcount ⊢
      omega
    case small => exact hsm
  -- The blocks in front end before the freed one starts, and it ends before those behind.
  have hgap := h.gapped
  simp only [Gapped, List.pairwise_append] at hgap
  have hfront : ∀ y ∈ ys, y.stop ≤ f.start := by
    intro y hy
    have hlt := hys y hy
    by_contra hc
    exact hdis y (by simp [hy]) f.start hfin (by
      simp only [Span.mem_iff, Span.stop] at hc ⊢; omega)
  have hback : ∀ z ∈ zs, f.stop ≤ z.start := by
    intro z hz
    have hlt := hzs z hz
    have hzpos := h.lenPos z (by simp [hz])
    by_contra hc
    exact hdis z (by simp [hz]) z.start
      (by simp only [Span.mem_iff, Span.stop] at hc ⊢; omega)
      (by simp only [Span.mem_iff]; omega)
  obtain ⟨ys', f', s', hmp, hs', hgys, hltf, hstop⟩ := mergePrev_spec hmid hgap.1 hfront
  obtain ⟨f'', zs', hs'', hgzs, hltz, hstart⟩ := mergeNext_spec hs' hgap.2.1 (by
    intro z hz; rw [hstop]; exact hback z hz)
  refine ⟨mergeNext s' f'.start, ys' ++ f'' :: zs', ?_, ⟨hs'', ?_⟩⟩
  · unfold defaultFreePages
    rw [if_neg (by omega), hloop, hins]
    show Except.ok (mergeNext (mergePrev _ f.start).1 (mergePrev _ f.start).2) = _
    rw [hmp]
  · simp only [Gapped, List.pairwise_append, List.pairwise_cons, List.mem_cons]
    refine ⟨hgys, ⟨hltz, hgzs⟩, ?_⟩
    have hpos := hs''.lenPos f'' (by simp)
    rintro y hy z (rfl | hz)
    · rw [hstart]
      exact hltf y hy
    · have h1 := hltf y hy
      have h2 := hltz z hz
      simp only [Span.stop] at h1 h2 ⊢
      omega

/-! ### Runs -/

/-- Walking `free_list` forward meets exactly the heads `ps`. -/
def FreeListIs (s : FreeArea) (ps : List Nat) : Prop :=
  s.links.Walk freeListHead (ps.map .page) freeListHead

/-- The blocks with the heads `ps`, each as long as its `property` field says. -/
def blocksAt (s : FreeArea) (ps : List Nat) : List Span :=
  ps.map fun p => ⟨p, (s.pages p).property⟩

/-- The bookkeeping of a manager of `n` pages is right, with `ps` on its free list. -/
structure Consistent (sys : PmmSys FreeArea) (n : Nat) (ps : List Nat) : Prop where
  freeList : FreeListIs sys.mgr ps
  /-- The live allocations are pairwise disjoint. -/
  live_disjoint : sys.live.Pairwise Span.Disjoint
  /-- No page of a live allocation belongs to a free block. -/
  live_free_disjoint : ∀ f ∈ sys.live, ∀ b ∈ blocksAt sys.mgr ps, f.Disjoint b
  free_disjoint : (blocksAt sys.mgr ps).Pairwise Span.Disjoint
  nrFree_eq_total : sys.mgr.nrFree = total (blocksAt sys.mgr ps)
  nrFree_eq_sub : sys.mgr.nrFree = n - total sys.live
  live_le : total sys.live ≤ n

/-- The block `base` goes into an empty free list, or in front of a block of it. -/
def InsertsInside (s : FreeArea) (base : Nat) : Prop :=
  listEmpty s.links freeListHead = true ∨ ∃ ps, FreeListIs s ps ∧ ∃ p ∈ ps, base < p

/-- No call frees a block behind the last free block of a list that is not empty. -/
def NoTailInsert (sys : PmmSys FreeArea) : PmmOp → Prop
  | .alloc _ => True
  | .free b => InsertsInside sys.mgr b.start

/-- The free list is that of the blocks. -/
theorem FreeArea.Shape.freeListIs {s : FreeArea} {fs live : List Span} {a n : Nat}
    (h : FreeArea.Shape s fs live a n) : FreeListIs s (fs.map Span.start) := by
  unfold FreeListIs
  rw [List.map_map]
  exact h.ring.seg.walk

/-- The blocks that are read off the list are those of the shape. -/
theorem FreeArea.Shape.blocksAt_eq {s : FreeArea} {fs live : List Span} {a n : Nat}
    (h : FreeArea.Shape s fs live a n) : blocksAt s (fs.map Span.start) = fs := by
  rw [blocksAt, List.map_map]
  conv_rhs => rw [← List.map_id fs]
  apply List.map_congr_left
  intro b hb
  show (⟨b.start, (s.pages b.start).property⟩ : Span) = b
  rw [h.property b hb]

/-- The invariant says what a client relies on. -/
theorem FreeArea.Inv.consistent {s : FreeArea} {fs live : List Span} {a n : Nat}
    (h : FreeArea.Inv s fs live a n) : Consistent ⟨s, live⟩ n (fs.map Span.start) := by
  have hdis := h.tiles.pairwise_disjoint
  rw [List.pairwise_append] at hdis
  have hcount := h.pageCount
  have hnr := h.nrFree
  constructor
  · exact h.freeListIs
  · exact hdis.2.1
  · rw [h.blocksAt_eq]
    exact fun f hf b hb => (hdis.2.2 b hb f hf).symm
  · rw [h.blocksAt_eq]
    exact hdis.1
  · rw [h.blocksAt_eq]
    exact hnr
  · show s.nrFree = n - total live
    omega
  · show total live ≤ n
    omega

/-- The test the code makes on its links, in terms of the invariant's list. -/
theorem FreeArea.Inv.notLast {s : FreeArea} {fs live : List Span} {a n base : Nat}
    (h : FreeArea.Inv s fs live a n) (hi : InsertsInside s base) : NotLast fs base := by
  rcases hi with hempty | ⟨ps, hps, p, hp, hlt⟩
  · left
    simpa [nodes] using (listEmpty_iff h.ring).mp hempty
  · right
    have hhead : ∀ qs : List Nat, freeListHead ∉ (qs.map .page : List ListNode) := by
      simp [freeListHead]
    have heq := Links.Walk.unique hps h.freeListIs (hhead _) (hhead _)
    have hps' : ps = fs.map Span.start :=
      List.map_injective_iff.mpr (fun _ _ e => by simpa using e) heq
    rw [hps'] at hp
    obtain ⟨b, hb, rfl⟩ := List.mem_map.mp hp
    exact ⟨b, hb, hlt⟩

/-- The state after `default_init` and `default_init_memmap`: one free block. -/
theorem defaultInitMemmap_inv {fuel a n : Nat} {s₀ s : FreeArea} (hn : n < 2 ^ 32)
    (h : defaultInitMemmap fuel (defaultInit s₀) a n = .ok s) :
    FreeArea.Inv s [⟨a, n⟩] [] a n := by
  unfold defaultInitMemmap at h
  split at h
  · cases h
  · rename_i hn0
    cases hloop : initMemmapLoop n a (defaultInit s₀).pages with
    | error e => rw [hloop] at h; cases h
    | ok pages =>
        have hpages := initMemmapLoop_ok n a _ _ hloop
        have hr : (defaultInit s₀).links.Ring freeListHead (nodes []) := Links.ring_init _ _
        have hempty : listEmpty (defaultInit s₀).links freeListHead = true :=
          (listEmpty_iff hr).mpr rfl
        rw [hloop] at h
        -- The list is empty, so the block is put in at its head.
        unfold insertByAddress at h
        rw [hempty] at h
        cases h
        have hin : a ∈ (⟨a, n⟩ : Span) := by simp only [Span.mem_iff]; omega
        constructor
        case gapped => simp [Gapped]
        case toShape =>
          constructor
          case ring =>
            have hfresh : (.page a : ListNode) ∉ freeListHead :: nodes [] := by
              simp [freeListHead]
            exact ring_listAdd_head hr hfresh
          case tiles =>
            intro p
            simp [cover_cons]
          case lenPos =>
            intro b hb
            have hb' : b = ⟨a, n⟩ := by simpa using hb
            rw [hb']
            show 0 < n
            omega
          case property =>
            intro b hb
            rw [List.mem_singleton.mp hb]
            simp [Pages.setProperty_property, uint_of_lt hn]
          case flag =>
            intro p hp
            simp only [Pages.setPageProperty_flag, Pages.setProperty_flags, hpages p, if_pos hp,
              List.mem_singleton, exists_eq_left]
            -- The loop has cleared the flags of all pages, and only the first one gets
            -- `PG_property`.
            simp [PageFlags.zero, eq_comm]
          case reserved =>
            intro p hp
            simp only [Pages.setPageProperty_reserved, Pages.setProperty_flags, hpages p,
              if_pos hp]
            rfl
          case nrFree =>
            show uint (0 + n) = _
            rw [Nat.zero_add, uint_of_lt hn]
            rfl
          case pageCount => simp
          case small => exact hn

/-! More fuel does not change the result of a walk that ended. -/

/-- More fuel does not change what the search finds. -/
theorem firstFitLoop_mono (pages : Pages) (l : Links ListNode) (n d : Nat) :
    ∀ (fuel : Nat) (le : ListNode) (r : Option Nat),
      firstFitLoop pages l n fuel le = .ok r → firstFitLoop pages l n (fuel + d) le = .ok r := by
  intro fuel
  induction fuel with
  | zero => intro le r h; cases h
  | succ fuel ih =>
      intro le r h
      rw [Nat.add_right_comm, firstFitLoop]
      rw [firstFitLoop] at h
      split at h
      · exact h
      · split at h
        · rename_i hp
          rw [if_pos hp]
          exact h
        · rename_i hp
          rw [if_neg hp]
          exact ih _ _ h

/-- More fuel does not change where a block is put in. -/
theorem insertLoop_mono (base d : Nat) :
    ∀ (fuel : Nat) (l l' : Links ListNode) (le : ListNode),
      insertLoop base fuel l le = .ok l' → insertLoop base (fuel + d) l le = .ok l' := by
  intro fuel
  induction fuel with
  | zero => intro l l' le h; cases h
  | succ fuel ih =>
      intro l l' le h
      rw [Nat.add_right_comm, insertLoop]
      rw [insertLoop] at h
      split at h
      · exact h
      · split at h
        · rename_i hp
          rw [if_pos hp]
          exact h
        · rename_i hp
          rw [if_neg hp]
          split at h
          · rename_i hl
            rw [if_pos hl]
            exact ih _ _ _ h
          · rename_i hl
            rw [if_neg hl]
            exact ih _ _ _ h

/-- More fuel does not change what `default_alloc_pages` returns. -/
theorem defaultAllocPages_mono {fuel d k : Nat} {s : FreeArea} {r : Option Nat × FreeArea}
    (h : defaultAllocPages fuel s k = .ok r) : defaultAllocPages (fuel + d) s k = .ok r := by
  unfold defaultAllocPages at h ⊢
  by_cases hk : k = 0
  · rw [if_pos hk] at h; cases h
  · rw [if_neg hk] at h ⊢
    by_cases hn : s.nrFree < k
    · rw [if_pos hn] at h ⊢
      exact h
    · rw [if_neg hn] at h ⊢
      cases hl : firstFitLoop s.pages s.links k fuel freeListHead with
      | error e => rw [hl] at h; cases h
      | ok q =>
          rw [hl] at h
          rw [firstFitLoop_mono _ _ _ d _ _ _ hl]
          exact h

/-- More fuel does not change where a block is put in. -/
theorem insertByAddress_mono {fuel d base : Nat} {l l' : Links ListNode}
    (h : insertByAddress fuel l base = .ok l') : insertByAddress (fuel + d) l base = .ok l' := by
  unfold insertByAddress at h ⊢
  by_cases he : listEmpty l freeListHead = true
  · rw [if_pos he] at h ⊢
    exact h
  · rw [if_neg he] at h ⊢
    exact insertLoop_mono base d _ _ _ _ h

/-- More fuel does not change what `default_free_pages` does. -/
theorem defaultFreePages_mono {fuel d base k : Nat} {s s' : FreeArea}
    (h : defaultFreePages fuel s base k = .ok s') :
    defaultFreePages (fuel + d) s base k = .ok s' := by
  unfold defaultFreePages at h ⊢
  by_cases hk : k = 0
  · rw [if_pos hk] at h; cases h
  · rw [if_neg hk] at h ⊢
    cases hl : freePagesLoop k base s.pages with
    | error e => rw [hl] at h; cases h
    | ok pages =>
        rw [hl] at h
        cases hi : insertByAddress fuel s.links base with
        | error e => rw [hi] at h; cases h
        | ok l =>
            rw [hi] at h
            rw [insertByAddress_mono hi]
            exact h

/-- One call keeps the invariant. -/
theorem exec_inv {t u : PmmSys FreeArea} {fs : List Span} {a n fuel : Nat} {op : PmmOp}
    (h : FreeArea.Inv t.mgr fs t.live a n) (hl : PmmManager.Legal t op) (hc : NoTailInsert t op)
    (he : defaultPmmManager.exec fuel t op = .ok u) :
    ∃ fs', FreeArea.Inv u.mgr fs' u.live a n := by
  have hlen : fs.length < fuel + (fs.length + 1) := by omega
  cases op with
  | alloc k =>
      cases hr : defaultAllocPages fuel t.mgr k with
      | error e => simp [PmmManager.exec, defaultPmmManager, hr] at he; cases he
      | ok r =>
          have hk : 0 < k := by
            by_contra hk0
            rw [defaultAllocPages, if_pos (by omega)] at hr
            cases hr
          have hr' := defaultAllocPages_mono (d := fs.length + 1) hr
          rcases defaultAllocPages_spec h hk hlen with ⟨hnone, -⟩ | ⟨ys, b, zs, hfs, -, -, hok, hinv⟩
          · rw [hnone] at hr'
            cases hr'
            simp only [PmmManager.exec, defaultPmmManager, hr] at he
            cases he
            exact ⟨fs, h⟩
          · rw [hok] at hr'
            cases hr'
            simp only [PmmManager.exec, defaultPmmManager, hr] at he
            cases he
            exact ⟨_, hinv⟩
  | free b =>
      cases hr : defaultFreePages fuel t.mgr b.start b.len with
      | error e => simp only [PmmManager.exec, defaultPmmManager, hr] at he; cases he
      | ok s' =>
          have hr' := defaultFreePages_mono (d := fs.length + 1) hr
          obtain ⟨s'', fs', hok, hinv⟩ := defaultFreePages_spec h hl (h.notLast hc) hlen
          rw [hok] at hr'
          cases hr'
          simp only [PmmManager.exec, defaultPmmManager, hr] at he
          cases he
          exact ⟨fs', hinv⟩

/-- In every run from the initialised region in which no block is freed behind the last
free block, the bookkeeping is right. -/
theorem consistent_of_run {a n : Nat} {s₀ : FreeArea} {s t : PmmSys FreeArea} (hn : n < 2 ^ 32)
    (hs : defaultPmmManager.Start s₀ a n s) (h : defaultPmmManager.Run NoTailInsert s t) :
    ∃ ps, Consistent t n ps := by
  obtain ⟨fuel, mgr, hinit, rfl⟩ := hs
  have hstart := defaultInitMemmap_inv hn hinit
  have hinv : ∃ fs, FreeArea.Inv t.mgr fs t.live a n := by
    apply PmmManager.Run.invariant _ h
    · exact ⟨_, hstart⟩
    · rintro t u fuel op ⟨fs, hfs⟩ hl hc he
      exact exec_inv hfs hl hc he
  obtain ⟨fs, hfs⟩ := hinv
  exact ⟨_, hfs.consistent⟩

/-- Memory in which every page is reserved, as `page_init` leaves it. -/
def reservedMemory : FreeArea where
  pages := fun _ => ⟨0, ⟨true, false⟩, 0⟩
  links := ⟨id, id⟩
  nrFree := 0

/-- The manager of a region of seven pages. -/
def sevenPages : Except Halt FreeArea :=
  defaultInitMemmap 10 (defaultInit reservedMemory) 0 7

/-- The client's part of `frontInsert_consistent`, with the links it relies on. -/
def frontInsertCheck : Except Halt Bool := do
  let mgr ← sevenPages
  let t ← defaultPmmManager.exec 10 ⟨mgr, []⟩ (.alloc 1)
  let u ← defaultPmmManager.exec 10 t (.free ⟨0, 1⟩)
  return t.live == [⟨0, 1⟩] && t.mgr.links.next freeListHead == .page 1 &&
    t.mgr.links.next (.page 1) == freeListHead && u.live == []

/-- Allocating the first page and freeing it in front of the rest. -/
theorem frontInsert_run :
    ∃ s t u, defaultPmmManager.Start reservedMemory 0 7 s ∧
      defaultPmmManager.exec 10 s (.alloc 1) = .ok t ∧ t.live = [⟨0, 1⟩] ∧
      defaultPmmManager.exec 10 t (.free ⟨0, 1⟩) = .ok u ∧ u.live = [] ∧
      defaultPmmManager.Run NoTailInsert s u := by
  have hcheck : frontInsertCheck = .ok true := by decide +kernel
  unfold frontInsertCheck at hcheck
  obtain ⟨mgr, hinit, hcheck⟩ := Halt.bind_eq_ok.mp hcheck
  obtain ⟨t, ht, hcheck⟩ := Halt.bind_eq_ok.mp hcheck
  obtain ⟨u, hu, hcheck⟩ := Halt.bind_eq_ok.mp hcheck
  have hand := Except.ok.inj hcheck
  simp only [Bool.and_eq_true, beq_iff_eq] at hand
  obtain ⟨⟨⟨hlive, hnext⟩, hlast⟩, hnone⟩ := hand
  have hs : defaultPmmManager.Start reservedMemory 0 7 ⟨mgr, []⟩ := ⟨10, mgr, hinit, rfl⟩
  have hlegal : PmmManager.Legal t (.free ⟨0, 1⟩) := by
    show (⟨0, 1⟩ : Span) ∈ t.live
    rw [hlive]
    exact List.mem_singleton.mpr rfl
  have hinside : NoTailInsert t (.free ⟨0, 1⟩) :=
    Or.inr ⟨[1], ⟨hnext, hlast⟩, 1, by decide, by decide⟩
  have hfree : PmmManager.Legal ⟨mgr, []⟩ (.alloc 1) := True.intro
  have hfirst : defaultPmmManager.Run NoTailInsert ⟨mgr, []⟩ t := .step .refl hfree True.intro ht
  have hrun : defaultPmmManager.Run NoTailInsert ⟨mgr, []⟩ u := .step hfirst hlegal hinside hu
  exact ⟨_, t, u, hs, ht, hlive, hu, hnone, hrun⟩

/-- The first of seven pages is allocated and freed, and the bookkeeping is right behind both calls. -/
theorem frontInsert_consistent :
    ∃ s t u, defaultPmmManager.Start reservedMemory 0 7 s ∧
      defaultPmmManager.exec 10 s (.alloc 1) = .ok t ∧ t.live = [⟨0, 1⟩] ∧
      defaultPmmManager.exec 10 t (.free ⟨0, 1⟩) = .ok u ∧ u.live = [] ∧
      defaultPmmManager.Run NoTailInsert s u ∧ ∃ ps, Consistent u 7 ps := by
  obtain ⟨s, t, u, hs, ht, hlive, hu, hnone, hrun⟩ := frontInsert_run
  exact ⟨s, t, u, hs, ht, hlive, hu, hnone, hrun, consistent_of_run (by decide) hs hrun⟩

/-- Seven pages: allocate all of them, free the first, the third and the last block, and
ask for two pages twice. -/
def tailInsertCalls : List PmmOp :=
  [.alloc 1, .alloc 1, .alloc 2, .alloc 2, .alloc 1, .free ⟨0, 1⟩, .free ⟨2, 2⟩, .free ⟨6, 1⟩,
    .alloc 2, .alloc 2]

/-- The live allocations after the calls on a region of seven pages. -/
def liveAfter (ops : List PmmOp) : Except Halt (List Span) := do
  let mgr ← sevenPages
  let t ← defaultPmmManager.execAll 10 ⟨mgr, []⟩ ops
  return t.live

/-- The two last calls of `tailInsertCalls` both return the pages two and three. -/
theorem tailInsert_hands_out_twice :
    ¬ ∀ (s₀ : FreeArea) (a n : Nat) (s t : PmmSys FreeArea),
      defaultPmmManager.Start s₀ a n s → defaultPmmManager.Run PmmManager.Always s t → ∃ ps, Consistent t n ps := by
  intro hall
  have hlive : liveAfter tailInsertCalls = .ok [⟨2, 2⟩, ⟨2, 2⟩, ⟨4, 2⟩, ⟨1, 1⟩] := by
    decide +kernel
  unfold liveAfter at hlive
  obtain ⟨mgr, hinit, hlive⟩ := Halt.bind_eq_ok.mp hlive
  obtain ⟨t, hrun, hlive⟩ := Halt.bind_eq_ok.mp hlive
  have ht : t.live = [⟨2, 2⟩, ⟨2, 2⟩, ⟨4, 2⟩, ⟨1, 1⟩] := Except.ok.inj hlive
  obtain ⟨ps, hps⟩ := hall reservedMemory 0 7 ⟨mgr, []⟩ t ⟨10, mgr, hinit, rfl⟩
    (defaultPmmManager.run_of_execAll hrun)
  have hdis := hps.live_disjoint
  rw [ht] at hdis
  have hself := (List.pairwise_cons.mp hdis).1 ⟨2, 2⟩ (by simp) 2
  exact hself (by decide) (by decide)

end Ucore.Proofs.Mm
