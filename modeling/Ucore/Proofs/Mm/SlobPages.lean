import Ucore.Proofs.Mm.Slob
import Ucore.Lib.Runs

/-!
# `Ucore.Proofs.Mm.SlobPages`: the blocks of `slob_alloc` tile its pages

The pages of the allocator and its static block are tiled by the free blocks and by the blocks that
it has given (`SlobOk`). `slob_alloc` gives one more block and takes a page at most
(`SlobOk.alloc`), and `slob_free` takes one back (`SlobOk.release`). No call changes a word of
another block.

`ground` is what is tiled: the static block and the pages. A tiling is two families of spans that
cover each cell of the ground once. `SlobOk.take` moves a span from the free blocks to the used
ones, and `SlobOk.page` adds a page to both sides: to the ground, and to the used blocks, from which
`SlobOk.release` then frees it, as the source does.

`Keeps` says that the words of some spans are the same, headers and contents. The used blocks are
kept because the words that a call writes are headers of free blocks, and no cell of a used block is
one (`SlobOk.keeps`).

The `_mono` lemmas at the beginning let the fuel grow. With them a loop needs some fuel only, and
its caller takes what is enough for all of its loops.
-/

set_option autoImplicit false

namespace Ucore.Proofs.Mm

open Ucore.Lib Ucore.Mm

variable {arena : Nat} {k k' : Kmem} {free used : List Span} {pages : List Nat}
  {pa : PageAlloc arena} {size fuel fuel' : Nat}

/-! ### More fuel does not change a result -/

/-- More fuel does not change where the search for the place of a block ends. -/
theorem reinsertionPoint_mono {b : Nat} : ∀ {fuel fuel' cur c : Nat}, fuel ≤ fuel' →
    reinsertionPoint k b fuel cur = .ok c → reinsertionPoint k b fuel' cur = .ok c := by
  intro fuel
  induction fuel with
  | zero => intro fuel' cur c _ h; cases h
  | succ fuel ih =>
      intro fuel' cur c hle h
      obtain ⟨fuel', rfl⟩ : ∃ m, fuel' = m + 1 := ⟨fuel' - 1, by omega⟩
      unfold reinsertionPoint at h ⊢
      by_cases h1 : cur < b ∧ b < k.next cur
      · rwa [if_pos h1] at h ⊢
      · by_cases h2 : k.next cur ≤ cur ∧ (cur < b ∨ b < k.next cur)
        · rwa [if_neg h1, if_pos h2] at h ⊢
        · rw [if_neg h1, if_neg h2] at h ⊢
          exact ih (by omega) h

/-- More fuel does not change what `slob_free` does. -/
theorem slobFree_mono {b : Nat} (hle : fuel ≤ fuel') (h : slobFree fuel k b size = .ok k') :
    slobFree fuel' k b size = .ok k' := by
  unfold slobFree at h ⊢
  by_cases hb : b = 0
  · rwa [if_pos hb] at h ⊢
  · rw [if_neg hb] at h ⊢
    obtain ⟨c, hc, hk'⟩ := Halt.bind_eq_ok.mp h
    exact Halt.bind_eq_ok.mpr ⟨c, reinsertionPoint_mono hle hc, hk'⟩

/-- More fuel does not change what the search of `slob_alloc` finds. -/
theorem slobSearch_mono {n : Nat} {r : Option (Nat × Nat)} : ∀ {fuel fuel' prev cur : Nat},
    fuel ≤ fuel' → slobSearch k n fuel prev cur = .ok r →
    slobSearch k n fuel' prev cur = .ok r := by
  intro fuel
  induction fuel with
  | zero => intro fuel' prev cur _ h; cases h
  | succ fuel ih =>
      intro fuel' prev cur hle h
      obtain ⟨fuel', rfl⟩ : ∃ m, fuel' = m + 1 := ⟨fuel' - 1, by omega⟩
      unfold slobSearch at h ⊢
      by_cases h1 : n ≤ k.units cur
      · rwa [if_pos h1] at h ⊢
      · by_cases h2 : cur = k.slobfree
        · rwa [if_neg h1, if_pos h2] at h ⊢
        · rw [if_neg h1, if_neg h2] at h ⊢
          exact ih (by omega) h

/-- More fuel does not change what the loop of `slob_alloc` returns. -/
theorem slobAllocLoop_mono {r : Nat × Kmem} : ∀ {fuel fuel' : Nat} {k : Kmem}, fuel ≤ fuel' →
    slobAllocLoop pa size fuel k = .ok r → slobAllocLoop pa size fuel' k = .ok r := by
  intro fuel
  induction fuel with
  | zero => intro fuel' k _ h; cases h
  | succ fuel ih =>
      intro fuel' k hle h
      obtain ⟨fuel', rfl⟩ : ∃ m, fuel' = m + 1 := ⟨fuel' - 1, by omega⟩
      have hle' : fuel ≤ fuel' := by omega
      unfold slobAllocLoop at h ⊢
      obtain ⟨found, hfound, h⟩ := Halt.bind_eq_ok.mp h
      refine Halt.bind_eq_ok.mpr ⟨found, slobSearch_mono hle' hfound, ?_⟩
      cases found with
      | some pc => exact h
      | none =>
          dsimp only at h ⊢
          by_cases h1 : size = PAGE_SIZE
          · rwa [if_pos h1] at h ⊢
          · by_cases h2 : (slobGetFreePages pa k 0).1 = 0
            · rwa [if_neg h1, if_pos h2] at h ⊢
            · rw [if_neg h1, if_neg h2] at h ⊢
              obtain ⟨k₁, hfree, h⟩ := Halt.bind_eq_ok.mp h
              exact Halt.bind_eq_ok.mpr ⟨k₁, slobFree_mono hle' hfree, ih hle' h⟩

/-- More fuel does not change what `slob_alloc` returns. -/
theorem slobAlloc_mono {r : Nat × Kmem} (hle : fuel ≤ fuel')
    (h : slobAlloc fuel pa k size = .ok r) : slobAlloc fuel' pa k size = .ok r := by
  unfold slobAlloc at h ⊢
  by_cases h1 : size + SLOB_UNIT < PAGE_SIZE
  · rw [if_pos h1] at h ⊢
    exact slobAllocLoop_mono hle h
  · rw [if_neg h1] at h
    cases h

/-- More fuel does not change what `kmalloc` returns. -/
theorem kmalloc_mono {r : Nat × Kmem} (hle : fuel ≤ fuel')
    (h : kmalloc fuel pa k size = .ok r) : kmalloc fuel' pa k size = .ok r := by
  unfold kmalloc at h ⊢
  by_cases h1 : size < PAGE_SIZE - SLOB_UNIT
  · rw [if_pos h1] at h ⊢
    obtain ⟨m, hm, h⟩ := Halt.bind_eq_ok.mp h
    exact Halt.bind_eq_ok.mpr ⟨m, slobAlloc_mono hle hm, h⟩
  · rw [if_neg h1] at h ⊢
    obtain ⟨⟨bb, k₁⟩, hm, h⟩ := Halt.bind_eq_ok.mp h
    refine Halt.bind_eq_ok.mpr ⟨(bb, k₁), slobAlloc_mono hle hm, ?_⟩
    dsimp only at h ⊢
    by_cases h2 : bb = 0
    · rwa [if_pos h2] at h ⊢
    · rw [if_neg h2] at h ⊢
      split
      · rename_i h3
        rw [if_pos h3] at h
        obtain ⟨k₂, hfree, h⟩ := Halt.bind_eq_ok.mp h
        exact Halt.bind_eq_ok.mpr ⟨k₂, slobFree_mono hle hfree, h⟩
      · rename_i h3
        rwa [if_neg h3] at h

/-- More fuel does not change what the search for a big block finds. -/
theorem findBig_mono {block : Nat} {r : Option (Option Nat × Nat)} :
    ∀ {fuel fuel' : Nat} {last : Option Nat} {bb : Nat}, fuel ≤ fuel' →
    findBig k block fuel last bb = .ok r → findBig k block fuel' last bb = .ok r := by
  intro fuel
  induction fuel with
  | zero => intro fuel' last bb _ h; cases h
  | succ fuel ih =>
      intro fuel' last bb hle h
      obtain ⟨fuel', rfl⟩ : ∃ m, fuel' = m + 1 := ⟨fuel' - 1, by omega⟩
      unfold findBig at h ⊢
      by_cases h1 : bb = 0
      · rwa [if_pos h1] at h ⊢
      · by_cases h2 : k.pages bb = block
        · rwa [if_neg h1, if_pos h2] at h ⊢
        · rw [if_neg h1, if_neg h2] at h ⊢
          exact ih (by omega) h

/-- More fuel does not change what `kfree` does. -/
theorem kfree_mono {block : Nat} (hle : fuel ≤ fuel') (h : kfree fuel k block = .ok k') :
    kfree fuel' k block = .ok k' := by
  unfold kfree at h ⊢
  by_cases h1 : block = 0
  · rwa [if_pos h1] at h ⊢
  · rw [if_neg h1] at h ⊢
    obtain ⟨found, hfound, h⟩ := Halt.bind_eq_ok.mp h
    refine Halt.bind_eq_ok.mpr ⟨found, ?_, ?_⟩
    · unfold bigOf at hfound ⊢
      by_cases h2 : block % PAGE_UNITS = 0
      · rw [if_pos h2] at hfound ⊢
        exact findBig_mono hle hfound
      · rwa [if_neg h2] at hfound ⊢
    · cases found with
      | none => exact slobFree_mono hle h
      | some lb => exact slobFree_mono hle h

/-! ### The tiling -/

/-- The static block and the pages. -/
def ground (arena : Nat) (pages : List Nat) : List Span :=
  ⟨arena, 1⟩ :: pages.map fun p => pageRun (p, 1)

/-- The free blocks and the used ones tile the static block and the pages. -/
structure SlobOk (arena : Nat) (k : Kmem) (free used : List Span) (pages : List Nat) : Prop where
  list : FreeList k free
  static : (⟨arena, 1⟩ : Span) ∈ free
  cells : ∀ p, cover (free ++ used) p = cover (ground arena pages) p
  apart : (ground arena pages).Pairwise Span.Disjoint
  away : ∀ p ∈ pages, (pageRun (p, 1)).stop < arena ∨ arena + 1 < p
  pos : ∀ p ∈ pages, 0 < p
  len : ∀ s ∈ used, 0 < s.len
  count : total free + total used = total (ground arena pages)

/-- The words of the cells of some spans are the same. -/
def Keeps (used : List Span) (k k' : Kmem) : Prop :=
  ∀ s ∈ used, ∀ u ∈ s, k'.lo u = k.lo u ∧ k'.hi u = k.hi u

/-- One call after another keeps the words of the blocks. -/
theorem Keeps.trans {k'' : Kmem} (h : Keeps used k k') (h' : Keeps used k' k'') :
    Keeps used k k'' := by
  intro s hs u hu
  rw [(h' s hs u hu).1, (h' s hs u hu).2]
  exact h s hs u hu

variable {b n : Nat}

/-- The free blocks and the given ones are pairwise disjoint. -/
theorem SlobOk.disjoint (h : SlobOk arena k free used pages) :
    (free ++ used).Pairwise Span.Disjoint := by
  apply pairwise_disjoint_of_cover_le
  intro p
  rw [h.cells]
  exact cover_le_one h.apart p

/-- A free block is disjoint from a given one. -/
theorem SlobOk.free_used (h : SlobOk arena k free used pages) {x s : Span} (hx : x ∈ free)
    (hs : s ∈ used) : x.Disjoint s := (List.pairwise_append.mp h.disjoint).2.2 x hx s hs

/-- A used block lies in the pages. -/
theorem SlobOk.used_page (h : SlobOk arena k free used pages) {s : Span} (hs : s ∈ used) {u : Nat}
    (hu : u ∈ s) : ∃ p ∈ pages, u ∈ pageRun (p, 1) := by
  have hpos : 0 < cover (ground arena pages) u := by
    rw [← h.cells]
    exact cover_pos (List.mem_append_right free hs) hu
  obtain ⟨t, ht, hut⟩ := exists_of_cover_pos hpos
  rcases List.mem_cons.mp ht with rfl | ht
  · exact absurd hu (h.free_used h.static hs u hut)
  · obtain ⟨p, hp, rfl⟩ := List.mem_map.mp ht
    exact ⟨p, hp, hut⟩

/-- A used block does not touch the static block. -/
theorem SlobOk.used_away (h : SlobOk arena k free used pages) {s : Span} (hs : s ∈ used) :
    arena + 1 < s.start ∨ s.stop < arena := by
  have hlen := h.len s hs
  obtain ⟨p, hp, hup⟩ := h.used_page hs (u := s.start) (by simp only [Span.mem_iff]; omega)
  obtain ⟨q, hq, huq⟩ := h.used_page hs (u := s.stop - 1) (by
    simp only [Span.mem_iff, Span.stop]
    omega)
  have hpa := h.away p hp
  have hqa := h.away q hq
  have hbefore := (h.free_used h.static hs).before Nat.one_pos hlen
  simp only [Span.mem_iff, Span.stop, pageRun] at hup huq hpa hqa hbefore ⊢
  omega

/-- No given block begins at NULL. -/
theorem SlobOk.used_pos (h : SlobOk arena k free used pages) {s : Span} (hs : s ∈ used) :
    0 < s.start := by
  have hlen := h.len s hs
  obtain ⟨p, hp, hup⟩ := h.used_page hs (u := s.start) (by simp only [Span.mem_iff]; omega)
  have hpos := h.pos p hp
  simp only [Span.mem_iff, pageRun] at hup
  omega

/-- No cell of another used block is the first one of a free block, or of the block itself. -/
theorem SlobOk.keeps {t : Span} (h : SlobOk arena k free (t :: used) pages) {x : Nat}
    (hsame : SameBut (x :: free.map Span.start) k k') (hx : x ∈ t ∨ ∃ f ∈ free, x ∈ f) :
    Keeps used k k' := by
  have hdis := (List.pairwise_append.mp h.disjoint).2.1
  intro s hs u hu
  have hs' : s ∈ t :: used := List.mem_cons_of_mem t hs
  apply hsame
  rw [List.mem_cons, not_or]
  constructor
  · rintro rfl
    rcases hx with hx | ⟨f, hf, hx⟩
    · exact (List.pairwise_cons.mp hdis).1 s hs u hx hu
    · exact h.free_used hf hs' u hx hu
  · intro hfree
    obtain ⟨f, hf, rfl⟩ := List.mem_map.mp hfree
    have hlen := h.list.pos f hf
    exact h.free_used hf hs' f.start (by simp only [Span.mem_iff]; omega) hu

/-- `slob_free` of a used block. -/
theorem SlobOk.release (h : SlobOk arena k free (⟨b, n⟩ :: used) pages) (size : Nat)
    (hn : n = if size = 0 then k.units b else SLOB_UNITS size) :
    ∃ F k' free', (∀ fuel, F ≤ fuel → slobFree fuel k b size = .ok k') ∧
      SlobOk arena k' free' used pages ∧ k'.bigblocks = k.bigblocks ∧ k'.runs = k.runs ∧
      (∀ p, cover free' p = cover free p + cover [⟨b, n⟩] p) ∧ Keeps used k k' := by
  have hmem : (⟨b, n⟩ : Span) ∈ (⟨b, n⟩ :: used : List Span) := List.mem_cons_self
  have hlen : 0 < n := h.len _ hmem
  have hb : 0 < b := h.used_pos hmem
  obtain ⟨k', free', hrun, hlist, hbig, hruns, hcover, htotal, hstatic, hsame⟩ :=
    slobFree_spec h.list (Nat.ne_of_gt hb) hn hlen (fun x hx =>
      (h.free_used hx hmem).before (h.list.pos x hx) hlen) h.static (h.used_away hmem)
      (Nat.le_refl free.length)
  refine ⟨free.length, k', free', fun fuel hfuel => slobFree_mono hfuel hrun, ⟨hlist, hstatic, ?_,
    h.apart, h.away, h.pos, fun s hs => h.len s (List.mem_cons_of_mem _ hs), ?_⟩, hbig, hruns,
    hcover, ?_⟩
  · intro p
    rw [← h.cells p, cover_append, cover_append, hcover, cover_cons_eq_add _ used]
    omega
  · rw [← h.count, htotal, total_cons]
    show total free + n + total used = total free + (n + total used)
    omega
  · exact h.keeps hsame (Or.inl (by simp only [Span.mem_iff]; omega))

/-- A block with room gives a used block. -/
theorem SlobOk.take {as cs : List Span} {x : Span} {prev : Nat}
    (h : SlobOk arena k (as ++ x :: cs) used pages)
    (hprev : prev ∈ (as ++ x :: cs).map Span.start) (hnext : k.next prev = x.start)
    (hn : 1 < n) (hfit : n ≤ x.len) :
    ∃ free', SlobOk arena (slobTake k n prev x.start) free' (⟨x.start, n⟩ :: used) pages ∧
      (slobTake k n prev x.start).units x.start = n ∧
      (slobTake k n prev x.start).bigblocks = k.bigblocks ∧
      (slobTake k n prev x.start).runs = k.runs ∧ Keeps used k (slobTake k n prev x.start) := by
  have hx : x ∈ as ++ x :: cs := by simp
  have hstatic : (⟨arena, 1⟩ : Span) ∈ as ++ cs := by
    have hne : (⟨arena, 1⟩ : Span) ≠ x := by
      rintro rfl
      exact absurd hfit (by show ¬ n ≤ 1; omega)
    have hmem := h.static
    simp only [List.mem_append, List.mem_cons] at hmem ⊢
    tauto
  obtain ⟨free', hlist, hcover, htotal, hkeep, hunits, hbig, hruns, hsame⟩ :=
    slobTake_spec h.list hprev hnext (by omega) hfit hstatic
  obtain ⟨t, ht, hsame⟩ := hsame
  refine ⟨free', ⟨hlist, hkeep _ hstatic, ?_, h.apart, h.away, h.pos, ?_, ?_⟩, hunits, hbig, hruns,
    ?_⟩
  · intro p
    have hp := hcover p
    rw [← h.cells p, cover_append, cover_append, cover_cons_eq_add _ used]
    omega
  · intro s hs
    rcases List.mem_cons.mp hs with rfl | hs
    · show 0 < n
      omega
    · exact h.len s hs
  · rw [← h.count, ← htotal, total_cons]
    show total free' + (n + total used) = total free' + n + total used
    omega
  · intro s hs u hu
    apply hsame
    rw [List.mem_append, not_or]
    constructor
    · exact fun hut => h.free_used hx hs u (ht u hut) hu
    · intro hfree
      obtain ⟨f, hf, rfl⟩ := List.mem_map.mp hfree
      have hlen := h.list.pos f hf
      exact h.free_used hf hs f.start (by simp only [Span.mem_iff]; omega) hu

/-- What `slob_alloc` leaves behind when it gives the block of `n` units at `m`. -/
structure Gave (arena : Nat) (pa : PageAlloc arena) (k k' : Kmem) (used : List Span)
    (pages : List Nat) (m n : Nat) (free' : List Span) (pages' : List Nat) : Prop where
  ok : SlobOk arena k' free' (⟨m, n⟩ :: used) pages'
  units : k'.units m = n
  keeps : Keeps used k k'
  bigblocks : k'.bigblocks = k.bigblocks
  grow : pages' = pages ∧ k'.runs = k.runs ∨
    ∃ p, pa.alloc k.runs 1 = some p ∧ pages' = p :: pages ∧ k'.runs = (p, 1) :: k.runs

/-- One search of `slob_alloc`. -/
theorem SlobOk.search (h : SlobOk arena k free used pages) (pa : PageAlloc arena)
    (hn : 1 < SLOB_UNITS size) :
    (∃ m k' free', (∀ fuel, free.length < fuel → slobAllocLoop pa size fuel k = .ok (m, k')) ∧
      Gave arena pa k k' used pages m (SLOB_UNITS size) free' pages) ∨
    (∀ fuel, free.length ≤ fuel →
      slobSearch k (SLOB_UNITS size) fuel k.slobfree (k.next k.slobfree) = .ok none) ∧
      ∀ x ∈ free, x.len < SLOB_UNITS size := by
  rcases h.list.search (n := SLOB_UNITS size) (le_refl free.length) with
    ⟨as, x, cs, prev, hrun, rfl, hprev, hnext, hfit⟩ | ⟨hrun, hall⟩
  · obtain ⟨free', hok, hunits, hbig, hruns, hkeeps⟩ := h.take hprev hnext hn hfit
    refine Or.inl ⟨x.start, _, free', ?_, hok, hunits, hkeeps, hbig, Or.inl ⟨rfl, hruns⟩⟩
    intro fuel hfuel
    obtain ⟨fuel, rfl⟩ : ∃ m, fuel = m + 1 := ⟨fuel - 1, by omega⟩
    unfold slobAllocLoop
    rw [slobSearch_mono (by omega) hrun]
    rfl
  · exact Or.inr ⟨fun fuel hfuel => slobSearch_mono hfuel hrun, hall⟩

/-- A run of one page. -/
theorem pageRun_one (p : Nat) : pageRun (p, 1) = ⟨p, 256⟩ := by simp [pageRun]

/-- A page joins the used blocks. -/
theorem SlobOk.page (h : SlobOk arena k free used pages) (hruns : ∀ p ∈ pages, (p, 1) ∈ k.runs)
    {p : Nat} (hp : pa.alloc k.runs 1 = some p) :
    SlobOk arena { k with runs := (p, 1) :: k.runs } free (⟨p, 256⟩ :: used) (p :: pages) := by
  have haway := pa.away hp
  refine ⟨⟨h.list.gap, h.list.units, h.list.cyc, h.list.rover⟩, h.static, ?_, ?_, ?_, ?_, ?_, ?_⟩
  · intro u
    have hu := h.cells u
    simp only [ground, List.map_cons, cover_append] at hu ⊢
    rw [cover_cons_eq_add ⟨arena, 1⟩] at hu ⊢
    rw [cover_cons_eq_add _ used, pageRun_one, cover_cons_eq_add _ (pages.map _)]
    omega
  · obtain ⟨hstatic, hpages⟩ := List.pairwise_cons.mp h.apart
    refine List.pairwise_cons.mpr ⟨?_, List.pairwise_cons.mpr ⟨?_, hpages⟩⟩
    · intro t ht
      rcases List.mem_cons.mp ht with rfl | ht
      · intro u hu hu'
        simp only [Span.mem_iff, pageRun, Span.stop] at hu hu' haway
        omega
      · exact hstatic t ht
    · intro t ht
      obtain ⟨q, hq, rfl⟩ := List.mem_map.mp ht
      exact pa.apart hp (q, 1) (hruns q hq)
  · intro q hq
    rcases List.mem_cons.mp hq with rfl | hq
    · exact haway
    · exact h.away q hq
  · intro q hq
    rcases List.mem_cons.mp hq with rfl | hq
    · exact (pa.pos hp).1
    · exact h.pos q hq
  · intro s hs
    rcases List.mem_cons.mp hs with rfl | hs
    · exact Nat.succ_pos 255
    · exact h.len s hs
  · have hcount := h.count
    simp only [ground, List.map_cons, total_cons, pageRun_one] at hcount ⊢
    omega

/-- The loop when no block has room. -/
theorem slobAllocLoop_none (hrun : slobSearch k (SLOB_UNITS size) fuel k.slobfree
      (k.next k.slobfree) = .ok none) (hsize : size ≠ PAGE_SIZE) :
    slobAllocLoop pa size (fuel + 1) k =
      if (slobGetFreePages pa k 0).1 = 0 then .ok (0, (slobGetFreePages pa k 0).2)
      else slobFree fuel (slobGetFreePages pa k 0).2 (slobGetFreePages pa k 0).1 PAGE_SIZE >>=
        slobAllocLoop pa size fuel := by
  rw [slobAllocLoop, hrun]
  exact if_neg hsize

/-- The page allocator has no run. -/
theorem slobGetFreePages_none {order : Nat} (hp : pa.alloc k.runs (2 ^ order) = none) :
    slobGetFreePages pa k order = (0, k) := by
  unfold slobGetFreePages
  rw [hp]

/-- The page allocator gives a run. -/
theorem slobGetFreePages_some {order p : Nat} (hp : pa.alloc k.runs (2 ^ order) = some p) :
    slobGetFreePages pa k order = (p, { k with runs := (p, 2 ^ order) :: k.runs }) := by
  unfold slobGetFreePages
  rw [hp]

/-- `slob_alloc` behind its assertion: no memory, or a block. -/
theorem SlobOk.alloc (h : SlobOk arena k free used pages) (pa : PageAlloc arena) (size : Nat)
    (hruns : ∀ p ∈ pages, (p, 1) ∈ k.runs)
    (hn : 1 < SLOB_UNITS size) (hn' : SLOB_UNITS size ≤ 256) (hsize : size ≠ PAGE_SIZE) :
    ∃ F m k', (∀ fuel, F ≤ fuel → slobAllocLoop pa size fuel k = .ok (m, k')) ∧
      (m = 0 ∧ k' = k ∧ pa.alloc k.runs 1 = none ∨ m ≠ 0 ∧ ∃ free' pages',
        Gave arena pa k k' used pages m (SLOB_UNITS size) free' pages') := by
  rcases h.search pa hn with ⟨m, k', free', hrun, hgave⟩ | ⟨hnone, -⟩
  · have hm := hgave.ok.used_pos List.mem_cons_self
    exact ⟨free.length + 1, m, k', hrun, Or.inr ⟨Nat.ne_of_gt hm, free', pages, hgave⟩⟩
  · cases hp : pa.alloc k.runs 1 with
    | none =>
        refine ⟨free.length + 1, 0, k, ?_, Or.inl ⟨rfl, rfl, rfl⟩⟩
        intro fuel hfuel
        obtain ⟨fuel, rfl⟩ : ∃ m, fuel = m + 1 := ⟨fuel - 1, by omega⟩
        rw [slobAllocLoop_none (hnone fuel (by omega)) hsize, slobGetFreePages_none hp, if_pos rfl]
    | some p =>
        obtain ⟨F, k₁, free₁, hfree, hok₁, hbig₁, hruns₁, hcover₁, hkeeps₁⟩ :=
          (h.page hruns hp).release PAGE_SIZE (n := 256) rfl
        -- The new page is part of one free block, so the next search succeeds.
        rcases hok₁.search pa hn with ⟨m, k', free', hrun, hgave⟩ | ⟨-, hall⟩
        · have hm := hgave.ok.used_pos List.mem_cons_self
          refine ⟨max (max F free.length) (free₁.length + 1) + 1, m, k', ?_,
            Or.inr ⟨Nat.ne_of_gt hm, free', p :: pages, hgave.ok, hgave.units,
              hkeeps₁.trans hgave.keeps, hgave.bigblocks.trans hbig₁, ?_⟩⟩
          · intro fuel hfuel
            obtain ⟨fuel, rfl⟩ : ∃ m, fuel = m + 1 := ⟨fuel - 1, by omega⟩
            have hp0 : p ≠ 0 := Nat.ne_of_gt (pa.pos hp).1
            rw [slobAllocLoop_none (hnone fuel (by omega)) hsize, slobGetFreePages_some hp,
              if_neg hp0]
            have hstep := hfree fuel (by omega)
            exact Halt.bind_eq_ok.mpr ⟨k₁, hstep, hrun fuel (by omega)⟩
          · rcases hgave.grow with ⟨-, hr⟩ | ⟨q, -, hq, -⟩
            · exact Or.inr ⟨p, hp, rfl, hr.trans hruns₁⟩
            · exact absurd hq (List.ne_cons_self)
        · exfalso
          have hlong : ∃ x ∈ free₁, 256 ≤ x.len := by
            rw [exists_long_iff hok₁.list.gap hok₁.list.pos (F := fun u => ∃ x ∈ free₁, u ∈ x)
              (fun u => Iff.rfl) (by omega)]
            refine ⟨p, fun i hi => exists_of_cover_pos ?_⟩
            rw [hcover₁]
            have hpos : 0 < cover [(⟨p, 256⟩ : Span)] (p + i) :=
              cover_pos List.mem_cons_self (by simp only [Span.mem_iff]; omega)
            omega
          obtain ⟨x, hx, hlen⟩ := hlong
          have hlt := hall x hx
          omega

end Ucore.Proofs.Mm
