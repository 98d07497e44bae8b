import Ucore.Proofs.Mm.Kmalloc

/-!
# `Ucore.Proofs.Mm.SlobRun`: runs of `slob_alloc` and `slob_free`

The free list of the slob allocator in every run of its two functions: circular, ascending from its
lowest block on, and without two blocks that touch. The static block stays on it for good, so its
one unit counts beside the units of the pages (`slob_of_run`). A page must not touch this block: the
list would merge the block with itself (`slob_static_block`).

A run is a sequence of calls and of writes into live blocks (`SlobRun`). A block is freed with the
size it was allocated with or with size zero, for which `slob_free` reads the header. The sizes are
those of `SlobSize`: a block of one unit has no room for its link beside its length.

`SlobRunOk` is the invariant, with a step lemma for each operation, and `slobRunOk_of_run` the
induction. `slob_of_run` reads three things off it: the list is one of the addresses (`SlobList`),
no live block meets a free one, and the units of all blocks together are those of the ground.

* `slob_of_run_merge` is a run that cuts three blocks from a page and frees two of them, which are
  merged with each other.
* `slob_static_block` is a page that ends at the static block. Behind one allocation the list has
  the static block twice.
-/

set_option autoImplicit false

namespace Ucore.Proofs.Mm

open Ucore.Lib Ucore.Mm

/-- The units of a live block of `slob_alloc`, from its address and its size. -/
def slobSpan (a : Nat × Nat) : Span := ⟨a.1, SLOB_UNITS a.2⟩

/-- The sizes of `slob_alloc`: two units at least, and less than a page. -/
def SlobSize (size : Nat) : Prop := 1 < SLOB_UNITS size ∧ size < PAGE_SIZE

/-- Calls of `slob_alloc` and `slob_free` and writes into live blocks, one after another. The list
has the address and the size of each live block. The pages come from allocators that satisfy `C`;
their pages do not touch the unit `far`. `slob_free` gets the size, or zero when the block still
has its units. -/
inductive SlobRun (arena far : Nat) (C : PageAlloc far → Prop) : Kmem → List (Nat × Nat) → Prop
  | init (k : Kmem) : k.Init arena → SlobRun arena far C k []
  | alloc {k k' : Kmem} {live : List (Nat × Nat)} (fuel : Nat) (pa : PageAlloc far)
      (ptr size : Nat) : SlobRun arena far C k live → C pa → SlobSize size →
      slobAlloc fuel pa k size = .ok (ptr, k') → ptr ≠ 0 →
      SlobRun arena far C k' ((ptr, size) :: live)
  | allocNull {k k' : Kmem} {live : List (Nat × Nat)} (fuel : Nat) (pa : PageAlloc far)
      (size : Nat) : SlobRun arena far C k live → C pa → SlobSize size →
      slobAlloc fuel pa k size = .ok (0, k') → SlobRun arena far C k' live
  | free {k k' : Kmem} {live : List (Nat × Nat)} (fuel : Nat) (a : Nat × Nat) (arg : Nat) :
      SlobRun arena far C k live → a ∈ live →
      arg = a.2 ∨ arg = 0 ∧ k.units a.1 = SLOB_UNITS a.2 →
      slobFree fuel k a.1 arg = .ok k' → SlobRun arena far C k' (live.erase a)
  | write {k : Kmem} {live : List (Nat × Nat)} (a : Nat × Nat) (lo hi : Nat → Nat) :
      SlobRun arena far C k live → a ∈ live →
      (∀ u, u ∉ slobSpan a → lo u = k.lo u ∧ hi u = k.hi u) →
      SlobRun arena far C { k with lo := lo, hi := hi } live

/-- The free list of the allocator: circular with the rover on it, in ascending order but for the
one link back, and with room between any two blocks. -/
structure SlobList (k : Kmem) (free : List Span) : Prop where
  circular : Cyclic k.next (free.map Span.start)
  rover : k.slobfree ∈ free.map Span.start
  units : ∀ b ∈ free, k.units b.start = b.len ∧ 0 < b.len
  merged : free.Pairwise fun b c => b.stop < c.start

/-- The free list is a list in the order of the addresses. -/
theorem FreeList.slobList {k : Kmem} {free : List Span} (h : FreeList k free) : SlobList k free :=
  ⟨h.cyc, h.rover, h.units, h.gap⟩

variable {arena far : Nat} {C : PageAlloc far → Prop} {k k' : Kmem} {live : List (Nat × Nat)}
  {free : List Span} {pages : List Nat} {size fuel : Nat} {a : Nat × Nat}

/-- A size that is asked for takes a page at most. -/
theorem slobUnits_bounds (h : SlobSize size) : SLOB_UNITS size ≤ 256 ∧ size ≠ PAGE_SIZE := by
  have hlt : size < 4096 := h.2
  unfold SLOB_UNITS
  show (size + 16 - 1) / 16 ≤ 256 ∧ size ≠ 4096
  omega

/-- The invariant of a run. -/
structure SlobRunOk (arena : Nat) (k : Kmem) (live : List (Nat × Nat)) (free : List Span)
    (pages : List Nat) : Prop where
  slob : SlobOk arena k free (live.map slobSpan) pages
  runs : k.runs = pages.map fun p => (p, 1)
  sizes : ∀ a ∈ live, SlobSize a.2

/-- The invariant holds at boot. -/
theorem SlobRunOk.init (h : k.Init arena) : SlobRunOk arena k [] [⟨arena, 1⟩] [] := by
  obtain ⟨hne, hunits, hnext, hrover, -, hruns⟩ := h
  refine ⟨⟨⟨by simp, ?_, hnext, by simp [hrover]⟩, by simp, fun _ => rfl, by simp [ground],
    by simp, by simp, by simp, rfl⟩, by rw [hruns]; rfl, by simp⟩
  intro b hb
  rw [List.mem_singleton.mp hb]
  exact ⟨hunits, Nat.one_pos⟩

/-- `slob_alloc` returns, and gives a block or changes nothing. -/
theorem SlobRunOk.alloc (h : SlobRunOk arena k live free pages) (pa : PageAlloc arena)
    (hsize : SlobSize size) (hassert : size + SLOB_UNIT < PAGE_SIZE) :
    ∃ F m k', (∀ fuel, F ≤ fuel → slobAlloc fuel pa k size = .ok (m, k')) ∧
      (m = 0 ∧ k' = k ∨
        m ≠ 0 ∧ ∃ free' pages', SlobRunOk arena k' ((m, size) :: live) free' pages') := by
  have hruns : ∀ p ∈ pages, (p, 1) ∈ k.runs := fun p hp => by
    rw [h.runs]
    exact List.mem_map_of_mem hp
  obtain ⟨hle, hne⟩ := slobUnits_bounds hsize
  obtain ⟨F, m, k', hrun, hcases⟩ := h.slob.alloc pa size hruns hsize.1 hle hne
  refine ⟨F, m, k', fun fuel hfuel => ?_, ?_⟩
  · unfold slobAlloc
    rw [if_pos hassert]
    exact hrun fuel hfuel
  · rcases hcases with ⟨hm, hk, -⟩ | ⟨hm, free', pages', hgave⟩
    · exact Or.inl ⟨hm, hk⟩
    · refine Or.inr ⟨hm, free', pages', hgave.ok, ?_, fun b hb => ?_⟩
      · rcases hgave.grow with ⟨rfl, hr⟩ | ⟨p, -, rfl, hr⟩
        · exact hr.trans h.runs
        · rw [hr, h.runs]
          rfl
      · rcases List.mem_cons.mp hb with rfl | hb
        · exact hsize
        · exact h.sizes b hb

/-- `slob_free` of a live block returns. -/
theorem SlobRunOk.release (h : SlobRunOk arena k live free pages) (ha : a ∈ live) {arg : Nat}
    (harg : arg = a.2 ∨ arg = 0 ∧ k.units a.1 = SLOB_UNITS a.2) :
    ∃ F k', (∀ fuel, F ≤ fuel → slobFree fuel k a.1 arg = .ok k') ∧
      ∃ free', SlobRunOk arena k' (live.erase a) free' pages := by
  -- the block that goes back is the first of the used ones
  have hperm : (live.map slobSpan).Perm (slobSpan a :: (live.erase a).map slobSpan) :=
    (List.perm_cons_erase ha).map slobSpan
  have hfirst : SlobOk arena k free (slobSpan a :: (live.erase a).map slobSpan) pages := by
    refine { h.slob with cells := fun p => ?_, len := fun s hs => ?_, count := ?_ }
    · rw [← h.slob.cells p, cover_append, cover_append, cover_perm hperm]
    · exact h.slob.len s (hperm.mem_iff.mpr hs)
    · rw [← h.slob.count, total_perm hperm]
  have hunits : SLOB_UNITS a.2 = if arg = 0 then k.units a.1 else SLOB_UNITS arg := by
    rcases harg with rfl | ⟨rfl, hu⟩
    · rw [if_neg]
      intro hzero
      have hsize := (h.sizes a ha).1
      rw [hzero] at hsize
      exact absurd hsize (by decide)
    · rw [if_pos rfl, hu]
  obtain ⟨F, k', free', hrun, hok, -, hruns, -⟩ := hfirst.release arg hunits
  exact ⟨F, k', hrun, free', hok, hruns.trans h.runs,
    fun b hb => h.sizes b (List.mem_of_mem_erase hb)⟩

/-- Writes into a live block. -/
theorem SlobRunOk.write (h : SlobRunOk arena k live free pages) (ha : a ∈ live)
    {lo hi : Nat → Nat} (hsame : ∀ u, u ∉ slobSpan a → lo u = k.lo u ∧ hi u = k.hi u) :
    SlobRunOk arena { k with lo := lo, hi := hi } live free pages := by
  refine ⟨h.slob.frame (fun x hx => hsame x.start fun hmem => ?_) rfl, h.runs, h.sizes⟩
  have hlen := h.slob.list.pos x hx
  exact h.slob.free_used hx (List.mem_map_of_mem ha) x.start
    (by simp only [Span.mem_iff]; omega) hmem

/-- A call of `slob_alloc` that has returned. -/
theorem SlobRunOk.alloc_ok (h : SlobRunOk arena k live free pages) {pa : PageAlloc arena} {m : Nat}
    (hsize : SlobSize size) (hok : slobAlloc fuel pa k size = .ok (m, k')) :
    m = 0 ∧ k' = k ∨
      m ≠ 0 ∧ ∃ free' pages', SlobRunOk arena k' ((m, size) :: live) free' pages' := by
  have hassert : size + SLOB_UNIT < PAGE_SIZE := by
    by_contra hnot
    unfold slobAlloc at hok
    rw [if_neg hnot] at hok
    cases hok
  obtain ⟨F, m', k₁, hrun, hcases⟩ := h.alloc pa hsize hassert
  -- both results are those with more fuel
  have hsame := hrun _ (Nat.le_max_left F fuel)
  rw [slobAlloc_mono (Nat.le_max_right F fuel) hok] at hsame
  obtain ⟨rfl, rfl⟩ := Prod.mk.inj (Except.ok.inj hsame)
  exact hcases

/-- The invariant holds in every run with pages that do not touch the static block. -/
theorem slobRunOk_of_run {C : PageAlloc arena → Prop} (h : SlobRun arena arena C k live) :
    ∃ free pages, SlobRunOk arena k live free pages := by
  induction h with
  | init k hk => exact ⟨_, _, .init hk⟩
  | alloc fuel pa ptr size _ _ hsize hok hne ih =>
      obtain ⟨free, pages, hinv⟩ := ih
      rcases hinv.alloc_ok hsize hok with ⟨hm, -⟩ | ⟨-, hinv'⟩
      · exact absurd hm hne
      · exact hinv'
  | allocNull fuel pa size _ _ hsize hok ih =>
      obtain ⟨free, pages, hinv⟩ := ih
      rcases hinv.alloc_ok hsize hok with ⟨-, rfl⟩ | ⟨hm, -⟩
      · exact ⟨free, pages, hinv⟩
      · exact absurd rfl hm
  | free fuel a arg _ ha harg hok ih =>
      obtain ⟨free, pages, hinv⟩ := ih
      obtain ⟨F, k', hrun, free', hinv'⟩ := hinv.release ha harg
      have hsame := hrun _ (Nat.le_max_left F fuel)
      rw [slobFree_mono (Nat.le_max_right F fuel) hok] at hsame
      obtain rfl := Except.ok.inj hsame
      exact ⟨free', pages, hinv'⟩
  | write a lo hi _ ha hsame ih =>
      obtain ⟨free, pages, hinv⟩ := ih
      exact ⟨free, pages, hinv.write ha hsame⟩

/-- The units of the pages and of the static block. -/
theorem total_ground (arena : Nat) (pages : List Nat) :
    total (ground arena pages) = PAGE_UNITS * pages.length + 1 := by
  induction pages with
  | nil => rfl
  | cons p pages ih =>
      have hunits : PAGE_UNITS = 256 := rfl
      simp only [ground, List.map_cons, total_cons, pageRun_one, List.length_cons] at ih ⊢
      rw [Nat.mul_succ]
      omega

/-- After every run with pages that do not touch the static block, the free list is circular and
ascending, its blocks are apart from each other and from the live ones, none of them touch, and the
units add up to those of the pages and the one of the static block. The loops end. -/
theorem slob_of_run (h : SlobRun arena arena (fun _ => True) k live) :
    ∃ free, SlobList k free ∧
      (free ++ live.map slobSpan).Pairwise Span.Disjoint ∧
      total free + total (live.map slobSpan) = PAGE_UNITS * k.runs.length + 1 ∧
      (∀ (pa : PageAlloc arena) size, SlobSize size → size + SLOB_UNIT < PAGE_SIZE →
        ∃ F r, ∀ fuel, F ≤ fuel → slobAlloc fuel pa k size = .ok r) ∧
      ∀ a ∈ live, ∀ arg, arg = a.2 ∨ arg = 0 ∧ k.units a.1 = SLOB_UNITS a.2 →
        ∃ F k', ∀ fuel, F ≤ fuel → slobFree fuel k a.1 arg = .ok k' := by
  obtain ⟨free, pages, hinv⟩ := slobRunOk_of_run h
  refine ⟨free, hinv.slob.list.slobList, hinv.slob.disjoint, ?_, ?_, ?_⟩
  · rw [hinv.slob.count, total_ground, hinv.runs, List.length_map]
  · intro pa size hsize hassert
    obtain ⟨F, m, k', hrun, -⟩ := hinv.alloc pa hsize hassert
    exact ⟨F, (m, k'), hrun⟩
  · intro a ha arg harg
    obtain ⟨F, k', hrun, -⟩ := hinv.release ha harg
    exact ⟨F, k', hrun⟩

/-- Three blocks are cut from a page, and the first two are given back, the second one with the size
that it still has. -/
def mergeCheck : Option Bool := do
  let a ← (slobAlloc 20 (bumpAlloc 1) bootKmem 160).toOption
  let b ← (slobAlloc 20 (bumpAlloc 1) a.2 320).toOption
  let c ← (slobAlloc 20 (bumpAlloc 1) b.2 48).toOption
  let k₄ ← (slobFree 20 c.2 768 160).toOption
  let k₅ ← (slobFree 20 k₄ 778 0).toOption
  return decide ((a.1 = 768 ∧ b.1 = 778 ∧ c.1 = 798) ∧
    (c.2.next 1 = 801 ∧ c.2.units 801 = 223 ∧ c.2.next 801 = 1) ∧ k₄.units 778 = 20 ∧
    k₅.next 1 = 768 ∧ k₅.units 768 = 30 ∧ k₅.next 768 = 801 ∧ k₅.next 801 = 1 ∧
    k₅.runs = [(768, 1)])

/-- The merge, run. -/
theorem mergeCheck_eq : mergeCheck = some true := by decide +kernel

/-- The second block is merged with the first one, in front of the block that is still live. The
list has the static block, these 30 units, and the rest of the page. -/
theorem slob_of_run_merge : ∃ (k₃ k₄ k₅ : Kmem) (free : List Span),
    SlobRun 1 1 (fun _ => True) k₃ [(798, 48), (778, 320), (768, 160)] ∧
    (k₃.next 1 = 801 ∧ k₃.units 801 = 223 ∧ k₃.next 801 = 1) ∧
    slobFree 20 k₃ 768 160 = .ok k₄ ∧ slobFree 20 k₄ 778 0 = .ok k₅ ∧
    SlobRun 1 1 (fun _ => True) k₅ [(798, 48)] ∧
    (k₅.next 1 = 768 ∧ k₅.units 768 = 30 ∧ k₅.next 768 = 801 ∧ k₅.next 801 = 1) ∧
    SlobList k₅ free ∧ (free ++ [slobSpan (798, 48)]).Pairwise Span.Disjoint ∧ total free = 254 := by
  have hcheck := mergeCheck_eq
  unfold mergeCheck at hcheck
  obtain ⟨⟨a, k₁⟩, h₁, hcheck⟩ := Option.bind_eq_some_iff.mp hcheck
  obtain ⟨⟨b, k₂⟩, h₂, hcheck⟩ := Option.bind_eq_some_iff.mp hcheck
  obtain ⟨⟨c, k₃⟩, h₃, hcheck⟩ := Option.bind_eq_some_iff.mp hcheck
  obtain ⟨k₄, h₄, hcheck⟩ := Option.bind_eq_some_iff.mp hcheck
  obtain ⟨k₅, h₅, hcheck⟩ := Option.bind_eq_some_iff.mp hcheck
  obtain ⟨⟨rfl, rfl, rfl⟩, hlist, hkept, hmerged₁, hmerged₂, hmerged₃, hmerged₄, hruns⟩ :=
    of_decide_eq_true (Option.some.inj hcheck)
  have hrun₀ : SlobRun 1 1 (fun _ => True) bootKmem [] := .init bootKmem bootKmem_init
  have hrun₁ := hrun₀.alloc 20 (bumpAlloc 1) 768 160 trivial (by unfold SlobSize; decide)
    (toOption_eq_some h₁) (by decide)
  have hrun₂ := hrun₁.alloc 20 (bumpAlloc 1) 778 320 trivial (by unfold SlobSize; decide)
    (toOption_eq_some h₂) (by decide)
  have hrun₃ := hrun₂.alloc 20 (bumpAlloc 1) 798 48 trivial (by unfold SlobSize; decide)
    (toOption_eq_some h₃) (by decide)
  have hrun₄ := hrun₃.free 20 (768, 160) 160 (by simp) (Or.inl rfl) (toOption_eq_some h₄)
  have hrun₅ := hrun₄.free 20 (778, 320) 0 (by simp) (Or.inr ⟨rfl, hkept⟩) (toOption_eq_some h₅)
  obtain ⟨free, hfree, hdisjoint, htotal, -, -⟩ := slob_of_run hrun₅
  rw [hruns] at htotal
  have hunits : total free + 3 = 256 + 1 := htotal
  exact ⟨k₃, k₄, k₅, free, hrun₃, hlist, toOption_eq_some h₄, toOption_eq_some h₅, hrun₅,
    ⟨hmerged₁, hmerged₂, hmerged₃, hmerged₄⟩, hfree, hdisjoint, by omega⟩

/-! ### A page that touches the static block -/

/-- The pages of an allocator are distinct from the static block. -/
def Distinct (arena : Nat) (pa : PageAlloc far) : Prop :=
  ∀ runs n p, pa.alloc runs n = some p → (pageRun (p, n)).Disjoint ⟨arena, 1⟩

/-- The page allocator gives one page, once. -/
theorem lowPage_alloc {runs : List (Nat × Nat)} {n p : Nat}
    (h : (if runs = [] ∧ n = 1 then some 256 else none) = some p) : runs = [] ∧ n = 1 ∧ p = 256 := by
  obtain ⟨⟨hruns, hn⟩, hp⟩ := Option.ite_none_right_eq_some.mp h
  exact ⟨hruns, hn, (Option.some.inj hp).symm⟩

/-- The run begins at a page, and not at zero. -/
theorem lowPage_pos {runs : List (Nat × Nat)} {n p : Nat}
    (h : (if runs = [] ∧ n = 1 then some 256 else none) = some p) : 0 < p ∧ p % PAGE_UNITS = 0 := by
  obtain ⟨-, -, rfl⟩ := lowPage_alloc h
  decide

/-- The run is disjoint from those handed out. -/
theorem lowPage_apart {runs : List (Nat × Nat)} {n p : Nat}
    (h : (if runs = [] ∧ n = 1 then some 256 else none) = some p) :
    ∀ r ∈ runs, (pageRun (p, n)).Disjoint (pageRun r) := by
  obtain ⟨rfl, -, -⟩ := lowPage_alloc h
  intro r hr
  cases hr

/-- The run does not touch the static arena. -/
theorem lowPage_away {runs : List (Nat × Nat)} {n p : Nat}
    (h : (if runs = [] ∧ n = 1 then some 256 else none) = some p) :
    (pageRun (p, n)).stop < 1024 ∨ 1024 + 1 < p := by
  obtain ⟨-, rfl, rfl⟩ := lowPage_alloc h
  decide

/-- An allocator with one page, which ends where the unit 512 begins. -/
def lowPage : PageAlloc 1024 where
  alloc := fun runs n => if runs = [] ∧ n = 1 then some 256 else none
  pos := lowPage_pos
  apart := lowPage_apart
  away := lowPage_away

/-- The static block at the unit 512, before the first call. -/
def pagedKmem : Kmem where
  lo _ := 1
  hi _ := 512
  slobfree := 512
  bigblocks := 0
  runs := []

/-- The list behind the first allocation of 200 units. -/
def touchCheck : Except Halt (Nat × Nat × Nat × Nat × Nat) := do
  let (m, k) ← slobAlloc 10 lowPage pagedKmem 3200
  return (m, k.slobfree, k.next 512, k.units 512, k.units 456)

/-- The page that ends at the static block is merged with it, and the block stays on the list: the
list has the unit 512 twice. And at the start there is no page, but a unit on the list. -/
theorem slob_static_block :
    (¬ ∀ (arena far : Nat) (k : Kmem) (live : List (Nat × Nat)),
        SlobRun arena far (Distinct arena) k live → ∃ free, SlobList k free) ∧
      ¬ ∀ (arena far : Nat) (k : Kmem) (live : List (Nat × Nat)),
        SlobRun arena far (Distinct arena) k live → ∀ free, SlobList k free →
          total free + total (live.map slobSpan) = PAGE_UNITS * k.runs.length := by
  have hinit : pagedKmem.Init 512 := ⟨by decide, rfl, rfl, rfl, rfl, rfl⟩
  constructor
  · intro hall
    have hcheck : touchCheck = .ok (256, 512, 456, 1, 57) := by rfl
    unfold touchCheck at hcheck
    obtain ⟨⟨m, k⟩, hok, hcheck⟩ := Halt.bind_eq_ok.mp hcheck
    simp only [pure, Except.pure, Except.ok.injEq, Prod.mk.injEq] at hcheck
    obtain ⟨rfl, hrover, hnext, hunits, hunits'⟩ := hcheck
    have hdistinct : Distinct 512 lowPage := by
      intro runs n p h
      obtain ⟨-, rfl, rfl⟩ := lowPage_alloc h
      intro u hu hu'
      simp only [pageRun_one, Span.mem_iff] at hu hu'
      omega
    obtain ⟨free, hlist⟩ := hall 512 1024 k [(256, 3200)]
      (.alloc 10 lowPage 256 3200 (.init pagedKmem hinit) hdistinct (by unfold SlobSize; decide) hok
        (by decide))
    -- both blocks are on the list, and the one at 456 ends behind the unit 512
    have hmem : 512 ∈ free.map Span.start := hrover ▸ hlist.rover
    have hmem' : 456 ∈ free.map Span.start := hnext ▸ hlist.circular.next_mem hmem
    obtain ⟨b, hb, hstart⟩ := List.mem_map.mp hmem
    obtain ⟨c, hc, hstart'⟩ := List.mem_map.mp hmem'
    have hlen := (hlist.units b hb).1
    have hlen' := (hlist.units c hc).1
    rw [hstart, hunits] at hlen
    rw [hstart', hunits'] at hlen'
    have hsymm : Std.Symm fun b c : Span => b.stop < c.start ∨ c.stop < b.start :=
      ⟨fun _ _ h => h.symm⟩
    have heither : free.Pairwise fun b c : Span => b.stop < c.start ∨ c.stop < b.start :=
      hlist.merged.imp fun h => Or.inl h
    have happart := heither.forall hb hc (by
      rintro rfl
      omega)
    simp only [Span.stop] at happart
    omega
  · intro hall
    have hcount := hall 512 512 pagedKmem [] (.init pagedKmem hinit) [⟨512, 1⟩]
      (SlobRunOk.init hinit).slob.list.slobList
    exact absurd hcount (by decide)

end Ucore.Proofs.Mm
