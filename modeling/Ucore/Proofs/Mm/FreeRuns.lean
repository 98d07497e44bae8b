import Ucore.Lib.Runs
import Ucore.Proofs.Mm.DefaultPmm

/-!
# `Ucore.Proofs.Mm.FreeRuns`: the first-fit free list is canonical

The invariant of the first-fit manager keeps a gap between any two free blocks, so the free list is
the decomposition of the free pages into maximal runs, and nothing of the order of the calls is left
in it (`canonical_of_run`). As for the invariant itself, no call may free a block behind the last
free block of a list that is not empty: there the insertion loop breaks the backward links
(`tailInsert_walks_differ`).

`Canonical` is about both walks, by `next` and by `prev`. The maximal runs of a set of pages are
`Ucore.Lib.Runs`, where they are shown to be determined by the set. So two runs that end with the
same live allocations end with the same free list. An allocation fails if and only if no `n` free
pages lie in a row (`FreeArea.Inv.alloc_iff`), which is a fact about the free pages and not about
the list.
-/

set_option autoImplicit false

namespace Ucore.Proofs.Mm

open Ucore.Lib
open Ucore.Libs
open Ucore.Mm

/-- The pages of the region that belong to no live allocation. -/
def FreePage (sys : PmmSys FreeArea) (a n p : Nat) : Prop :=
  p ∈ (⟨a, n⟩ : Span) ∧ ∀ f ∈ sys.live, p ∉ f

/-- Walking `free_list` backward meets exactly the heads `ps`. -/
def FreeListBackIs (s : FreeArea) (ps : List Nat) : Prop :=
  Links.Walk ⟨s.links.next, s.links.prev⟩ freeListHead (ps.map .page) freeListHead

/-- The free list, with the heads `ps`, is the list of the maximal runs of free pages in
ascending order, forward and backward. -/
structure Canonical (sys : PmmSys FreeArea) (a n : Nat) (ps : List Nat) : Prop where
  forward : FreeListIs sys.mgr ps
  backward : FreeListBackIs sys.mgr ps.reverse
  ascending : ps.Pairwise (· < ·)
  runs : ∀ b, b ∈ blocksAt sys.mgr ps ↔ MaxRun (FreePage sys a n) b

/-- The free pages are those the free blocks cover. -/
theorem FreeArea.Inv.freePage_iff {s : FreeArea} {fs live : List Span} {a n : Nat}
    (h : FreeArea.Inv s fs live a n) (p : Nat) :
    FreePage ⟨s, live⟩ a n p ↔ ∃ b ∈ fs, p ∈ b := by
  constructor
  · rintro ⟨hp, hlive⟩
    obtain ⟨b, hb, hpb⟩ := h.tiles.exists_mem hp
    rcases List.mem_append.mp hb with hfs | hl
    · exact ⟨b, hfs, hpb⟩
    · exact absurd hpb (hlive b hl)
  · rintro ⟨b, hb, hpb⟩
    refine ⟨h.tiles.subset (List.mem_append_left live hb) hpb, fun f hf hpf => ?_⟩
    have hdis := (List.pairwise_append.mp h.tiles.pairwise_disjoint).2.2 b hb f hf
    exact hdis p hpb hpf

/-- Under the invariant the free list is the list of the maximal free runs. -/
theorem FreeArea.Inv.canonical {s : FreeArea} {fs live : List Span} {a n : Nat}
    (h : FreeArea.Inv s fs live a n) : Canonical ⟨s, live⟩ a n (fs.map Span.start) := by
  have hpos : ∀ b ∈ fs, 0 < b.len := fun b hb => h.lenPos b (List.mem_append_left live hb)
  refine ⟨h.freeListIs, ?_, ?_, ?_⟩
  · unfold FreeListBackIs
    rw [← List.map_reverse, List.map_map]
    have hback := h.ring.seg.walk_back
    unfold nodes at hback
    rw [← List.map_reverse] at hback
    exact hback
  · rw [List.pairwise_map]
    refine h.gapped.imp ?_
    intro b c hlt
    unfold Span.stop at hlt
    omega
  · rw [h.blocksAt_eq]
    exact mem_iff_maxRun h.gapped hpos h.freePage_iff

/-- What `default_alloc_pages` answers, by the free pages alone. -/
theorem FreeArea.Inv.alloc_iff {s : FreeArea} {fs live : List Span} {a n : Nat}
    (h : FreeArea.Inv s fs live a n) {k : Nat} (hk : 0 < k) :
    (∃ fuel r, defaultAllocPages fuel s k = .ok r) ∧
      ∀ fuel r, defaultAllocPages fuel s k = .ok r →
        (r.1 = none ↔ ¬ ∃ p, ∀ i, i < k → FreePage ⟨s, live⟩ a n (p + i)) := by
  have hpos : ∀ b ∈ fs, 0 < b.len := fun b hb => h.lenPos b (List.mem_append_left live hb)
  have hlong := exists_long_iff h.gapped hpos h.freePage_iff hk
  constructor
  · rcases defaultAllocPages_spec h hk (Nat.lt_succ_self fs.length) with ⟨hok, -⟩ | hsome
    · exact ⟨_, _, hok⟩
    · obtain ⟨ys, b, zs, -, -, -, hok, -⟩ := hsome
      exact ⟨_, _, hok⟩
  · intro fuel r hr
    -- With more fuel the answer is the same, so take enough of it.
    have hr' := defaultAllocPages_mono (d := fs.length + 1) hr
    have hlen : fs.length < fuel + (fs.length + 1) := by omega
    rw [← hlong]
    rcases defaultAllocPages_spec h hk hlen with ⟨hok, hshort⟩ | ⟨ys, b, zs, hfs, hle, -, hok, -⟩
    · rw [hok] at hr'
      cases hr'
      simp only [true_iff]
      rintro ⟨b, hb, hle⟩
      have hlt := hshort b hb
      omega
    · rw [hok] at hr'
      cases hr'
      have hb : b ∈ fs := by
        rw [hfs]
        simp
      simp only [reduceCtorEq, false_iff, not_not]
      exact ⟨b, hb, hle⟩

/-- The invariant holds in every state of a run that never inserts at the tail. -/
theorem inv_of_run {a n : Nat} {s₀ : FreeArea} {s t : PmmSys FreeArea} (hn : n < 2 ^ 32)
    (hs : defaultPmmManager.Start s₀ a n s) (h : defaultPmmManager.Run NoTailInsert s t) :
    ∃ fs, FreeArea.Inv t.mgr fs t.live a n := by
  obtain ⟨fuel, mgr, hinit, rfl⟩ := hs
  apply PmmManager.Run.invariant _ h
  · exact ⟨_, defaultInitMemmap_inv hn hinit⟩
  · rintro t u fuel op ⟨fs, hfs⟩ hl hc he
    exact exec_inv hfs hl hc he

/-- After every run in which no block is freed behind the last free block, the free list
is the list of the maximal runs of free pages. Two such runs that end with the same free
pages end with the same free list, and a request fails exactly when the free pages have no
run of its length. -/
theorem canonical_of_run {a n : Nat} {s₀ : FreeArea} {s t : PmmSys FreeArea} (hn : n < 2 ^ 32)
    (hs : defaultPmmManager.Start s₀ a n s) (h : defaultPmmManager.Run NoTailInsert s t) :
    ∃ ps, Canonical t a n ps ∧
      (∀ (s₀' : FreeArea) (s' t' : PmmSys FreeArea), defaultPmmManager.Start s₀' a n s' →
        defaultPmmManager.Run NoTailInsert s' t' →
        (∀ p, FreePage t a n p ↔ FreePage t' a n p) →
          Canonical t' a n ps ∧ blocksAt t'.mgr ps = blocksAt t.mgr ps) ∧
      ∀ k, 0 < k → (∃ fuel r, defaultAllocPages fuel t.mgr k = .ok r) ∧
        ∀ fuel r, defaultAllocPages fuel t.mgr k = .ok r →
          (r.1 = none ↔ ¬ ∃ p, ∀ i, i < k → FreePage t a n (p + i)) := by
  obtain ⟨fs, hfs⟩ := inv_of_run hn hs h
  refine ⟨fs.map Span.start, hfs.canonical, ?_, fun k hk => hfs.alloc_iff hk⟩
  intro s₀' s' t' hs' h' hsame
  obtain ⟨gs, hgs⟩ := inv_of_run hn hs' h'
  have hpos : ∀ (mgr : FreeArea) (live es : List Span), FreeArea.Inv mgr es live a n →
      ∀ b ∈ es, 0 < b.len := fun _ live _ hes b hb => hes.lenPos b (List.mem_append_left live hb)
  have heq : fs = gs := eq_of_same_cells hfs.gapped (hpos _ _ _ hfs) hfs.freePage_iff hgs.gapped
    (hpos _ _ _ hgs) fun p => (hsame p).trans (hgs.freePage_iff p)
  subst heq
  exact ⟨hgs.canonical, by rw [hgs.blocksAt_eq, hfs.blocksAt_eq]⟩

/-- The first page allocated and freed: one free block again, the whole region. -/
theorem frontInsert_canonical :
    ∃ s t u, defaultPmmManager.Start reservedMemory 0 7 s ∧
      defaultPmmManager.exec 10 s (.alloc 1) = .ok t ∧ t.live = [⟨0, 1⟩] ∧
      defaultPmmManager.exec 10 t (.free ⟨0, 1⟩) = .ok u ∧
      defaultPmmManager.Run NoTailInsert s u ∧
      ∃ ps, Canonical u 0 7 ps ∧
        ∃ fuel r, defaultAllocPages fuel u.mgr 7 = .ok r ∧ r.1 ≠ none := by
  obtain ⟨s, t, u, hs, ht, hlive, hu, hnone, hrun⟩ := frontInsert_run
  obtain ⟨ps, hcan, -, hserve⟩ := canonical_of_run (by decide) hs hrun
  obtain ⟨⟨fuel, r, hr⟩, hnull⟩ := hserve 7 (by decide)
  refine ⟨s, t, u, hs, ht, hlive, hu, hrun, ps, hcan, fuel, r, hr, fun hno => ?_⟩
  apply (hnull fuel r hr).mp hno
  refine ⟨0, fun i hi => ⟨?_, ?_⟩⟩
  · simp only [Span.mem_iff]
    omega
  · rw [hnone]
    simp

/-- A walk does not leave a node that is linked to itself. -/
theorem not_walk_of_loop {l : Links ListNode} {x h : ListNode} (hx : l.next x = x) (hne : x ≠ h) :
    ∀ xs, ¬ l.Walk x xs h := by
  intro xs
  induction xs with
  | nil => exact fun hw => hne (hx.symm.trans hw)
  | cons y ys ih =>
      rintro ⟨hy, hw⟩
      rw [hx] at hy
      subst hy
      exact ih hw

/-- Three allocations of one page, and the first and the third freed. -/
def tailInsertFrees : List PmmOp :=
  [.alloc 1, .alloc 1, .alloc 1, .alloc 4, .free ⟨0, 1⟩, .free ⟨2, 1⟩]

/-- The backward links of `free_list` and of the page 2 after the calls. -/
def backLinksAfter (ops : List PmmOp) : Except Halt (ListNode × ListNode) := do
  let mgr ← sevenPages
  let t ← defaultPmmManager.execAll 10 ⟨mgr, []⟩ ops
  return (t.mgr.links.prev freeListHead, t.mgr.links.prev (.page 2))

/-- The page 2 goes behind the page 0, and the walk back from `free_list` stays there. -/
theorem tailInsert_walks_differ :
    ¬ ∀ (s₀ : FreeArea) (a n : Nat) (s t : PmmSys FreeArea), n < 2 ^ 32 →
      defaultPmmManager.Start s₀ a n s → defaultPmmManager.Run PmmManager.Always s t →
        ∃ ps, Canonical t a n ps := by
  intro hall
  have hback : backLinksAfter tailInsertFrees = .ok (.page 2, .page 2) := by decide +kernel
  unfold backLinksAfter at hback
  obtain ⟨mgr, hinit, hback⟩ := Halt.bind_eq_ok.mp hback
  obtain ⟨t, hrun, hback⟩ := Halt.bind_eq_ok.mp hback
  have hlinks := Except.ok.inj hback
  simp only [Prod.mk.injEq] at hlinks
  obtain ⟨hhead, hloop⟩ := hlinks
  obtain ⟨ps, hps⟩ := hall reservedMemory 0 7 ⟨mgr, []⟩ t (by decide) ⟨10, mgr, hinit, rfl⟩
    (defaultPmmManager.run_of_execAll hrun)
  have hwalk := hps.backward
  unfold FreeListBackIs at hwalk
  cases hrev : ps.reverse with
  | nil =>
      rw [hrev] at hwalk
      have hempty : t.mgr.links.prev freeListHead = freeListHead := hwalk
      rw [hhead] at hempty
      cases hempty
  | cons q qs =>
      rw [hrev] at hwalk
      obtain ⟨hq, hrest⟩ := hwalk
      have hq2 : (.page q : ListNode) = .page 2 := hq.symm.trans hhead
      rw [hq2] at hrest
      exact not_walk_of_loop hloop (fun h => by cases h) _ hrest

end Ucore.Proofs.Mm
