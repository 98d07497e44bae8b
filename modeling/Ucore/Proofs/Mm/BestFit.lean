import Ucore.Mm.BestFitPmm
import Ucore.Proofs.Mm.FreeRuns

/-!
# `Ucore.Proofs.Mm.BestFit`: the best-fit manager is best fit

The search of `best_fit_alloc_pages` finds the first of the smallest free blocks that are large
enough (`bestFitLoop_eq`), and the free list is the list of the maximal runs of free pages
(`Canonical`), as it is for the first-fit manager. So the manager answers by the free pages alone
(`bestFit_of_run`). As there, no call may free a block behind the last free block of a list that is
not empty (`tailInsert_returns_live_page`).

The loop has two local variables, the best block so far and its length. `Searched` says what they
mean for the blocks that the loop has passed: nothing was large enough, or the best is the first of
the smallest (`Leftmost`). `Searched.take` and `Searched.skip` are the two branches of a round, and
`bestFitLoop_eq` is the induction over the blocks that are left. The length starts at `nr_free + 1`,
which no block has, so that the first block that is large enough is always taken.

All that is not the search is code of the first-fit manager, with its missing `break`, and is
covered by the lemmas about that one.
-/

set_option autoImplicit false

namespace Ucore.Proofs.Mm

open Ucore.Lib
open Ucore.Libs
open Ucore.Mm

variable {fs ys zs us vs live : List Span} {b z : Span} {k limit min : Nat} {page : Option Nat}
  {s : FreeArea} {a n : Nat}

/-! ### The search for the best fit -/

/-- Between `us` and `vs`, `b` is the first of the smallest blocks with `k` pages at least. -/
structure Leftmost (k : Nat) (us : List Span) (b : Span) (vs : List Span) : Prop where
  long : k ≤ b.len
  left : ∀ y ∈ us, k ≤ y.len → b.len < y.len
  right : ∀ y ∈ vs, k ≤ y.len → b.len ≤ y.len

/-- What the local variables say of the blocks `ys` that the search has seen. -/
def Searched (k limit : Nat) (ys : List Span) (page : Option Nat) (min : Nat) : Prop :=
  page = none ∧ min = limit ∧ (∀ y ∈ ys, k ≤ y.len → limit ≤ y.len) ∨
    ∃ us b vs, ys = us ++ b :: vs ∧ Leftmost k us b vs ∧ page = some b.start ∧ min = b.len

/-- Every block that is large enough has `min` pages at least. -/
theorem Searched.min_le (h : Searched k limit ys page min) : ∀ y ∈ ys, k ≤ y.len → min ≤ y.len := by
  intro y hy hky
  rcases h with ⟨-, rfl, hall⟩ | ⟨us, b, vs, rfl, hleft, -, rfl⟩
  · exact hall y hy hky
  · rcases List.mem_append.mp hy with hu | hv
    · exact Nat.le_of_lt (hleft.left y hu hky)
    · rcases List.mem_cons.mp hv with rfl | hv
      · exact Nat.le_refl _
      · exact hleft.right y hv hky

/-- The next block becomes the smallest one. -/
theorem Searched.take (h : Searched k limit ys page min) (hk : k ≤ z.len) (hlt : z.len < min) :
    Searched k limit (ys ++ [z]) (some z.start) z.len := by
  refine Or.inr ⟨ys, z, [], rfl, ⟨hk, ?_, by simp⟩, rfl, rfl⟩
  exact fun y hy hky => Nat.lt_of_lt_of_le hlt (h.min_le y hy hky)

/-- The next block is too small, or no smaller than the smallest one. -/
theorem Searched.skip (h : Searched k limit ys page min) (hz : k ≤ z.len → min ≤ z.len) :
    Searched k limit (ys ++ [z]) page min := by
  rcases h with ⟨hpage, rfl, hall⟩ | ⟨us, b, vs, rfl, hleft, hpage, rfl⟩
  · refine Or.inl ⟨hpage, rfl, fun y hy => ?_⟩
    rcases List.mem_append.mp hy with hy | hy
    · exact hall y hy
    · rw [List.mem_singleton.mp hy]
      exact hz
  · refine Or.inr ⟨us, b, vs ++ [z], by simp, ⟨hleft.long, hleft.left, fun y hy => ?_⟩, hpage, rfl⟩
    rcases List.mem_append.mp hy with hy | hy
    · exact hleft.right y hy
    · rw [List.mem_singleton.mp hy]
      exact hz

/-- From the node behind the part `ys` that it has seen, the search goes through the rest. -/
theorem bestFitLoop_eq (pages : Pages) (l : Links ListNode) (k limit : Nat) :
    ∀ (zs ys : List Span) (fuel : Nat) (page : Option Nat) (min : Nat),
      l.Ring freeListHead (nodes (ys ++ zs)) → (∀ b ∈ zs, (pages b.start).property = b.len) →
      Searched k limit ys page min → zs.length < fuel →
      ∃ page' min', bestFitLoop pages l k fuel ((nodes ys).getLastD freeListHead) page min
        = .ok page' ∧ Searched k limit (ys ++ zs) page' min' := by
  intro zs
  induction zs with
  | nil =>
      intro ys fuel page min hr _ hs hf
      cases fuel with
      | zero => exact absurd hf (by simp)
      | succ fuel =>
          rw [nodes, List.map_append] at hr
          rw [bestFitLoop, hr.next_getLastD]
          exact ⟨page, min, rfl, by simpa using hs⟩
  | cons z zs ih =>
      intro ys fuel page min hr hprop hs hf
      cases fuel with
      | zero => exact absurd hf (by simp)
      | succ fuel =>
          have hz := hprop z (by simp)
          have hlast : (nodes (ys ++ [z])).getLastD freeListHead = .page z.start := by
            simp [nodes]
          have hrest := fun page min hs' => ih (ys ++ [z]) fuel page min (by simpa using hr)
            (fun b hb => hprop b (by simp [hb])) hs' (by
              simp only [List.length_cons] at hf; omega)
          simp only [hlast, List.append_assoc, List.singleton_append] at hrest
          rw [nodes, List.map_append] at hr
          rw [bestFitLoop, hr.next_getLastD]
          simp only [List.map_cons, List.headD_cons, hz]
          by_cases hfit : k ≤ z.len ∧ z.len < min
          · rw [if_pos hfit]
            exact hrest _ _ (hs.take hfit.1 hfit.2)
          · rw [if_neg hfit]
            exact hrest _ _ (hs.skip fun hk => by omega)

/-! ### Allocation -/

/-- `best_fit_alloc_pages` takes the first of the smallest blocks that are large enough, and
returns `NULL` exactly when no block is. -/
theorem bestFitAllocPages_spec {fuel : Nat} (h : FreeArea.Inv s fs live a n) (hk : 0 < k)
    (hn : n + 1 < 2 ^ 32) (hf : fs.length < fuel) :
    (bestFitAllocPages fuel s k = .ok (none, s) ∧ ∀ b ∈ fs, b.len < k) ∨
    ∃ us b vs, fs = us ++ b :: vs ∧ Leftmost k us b vs ∧
      bestFitAllocPages fuel s k = .ok (some b.start, takePages s b.start k) ∧
      FreeArea.Inv (takePages s b.start k) (us ++ (remainder b k ++ vs))
        (⟨b.start, k⟩ :: live) a n := by
  have hk0 : k ≠ 0 := by omega
  have hle : ∀ b ∈ fs, b.len ≤ s.nrFree := by
    intro b hb
    rw [h.nrFree]
    exact h.len_le hb
  unfold bestFitAllocPages
  rw [if_neg hk0]
  by_cases hfree : s.nrFree < k
  · left
    rw [if_pos hfree]
    exact ⟨rfl, fun b hb => Nat.lt_of_le_of_lt (hle b hb) hfree⟩
  · have hsum : uint (s.nrFree + 1) = s.nrFree + 1 := by
      have hcount := h.pageCount
      have hnr := h.nrFree
      exact uint_of_lt (by omega)
    obtain ⟨page, min, hloop, hsearch⟩ := bestFitLoop_eq s.pages s.links k (s.nrFree + 1) fs []
      fuel none (s.nrFree + 1) (by simpa using h.ring) h.property
      (Or.inl ⟨rfl, rfl, by simp⟩) hf
    have hstart : (nodes []).getLastD freeListHead = freeListHead := rfl
    rw [hstart] at hloop
    rw [if_neg hfree, hsum, hloop]
    rcases hsearch with ⟨rfl, -, hall⟩ | ⟨us, b, vs, heq, hleft, rfl, -⟩
    · left
      refine ⟨rfl, fun b hb => ?_⟩
      -- a block that is large enough would have more pages than there are
      by_contra hge
      have hlarge := hall b (by simpa using hb) (Nat.le_of_not_lt hge)
      have hsmall := hle b hb
      omega
    · right
      simp only [List.nil_append] at heq
      subst heq
      exact ⟨us, b, vs, rfl, hleft, rfl, takePages_shape h.toShape hk hleft.long,
        gapped_remainder h.gapped⟩

/-- More fuel does not change the result of the loop. -/
theorem bestFitLoop_mono (pages : Pages) (l : Links ListNode) (k d : Nat) :
    ∀ (fuel : Nat) (le : ListNode) (page : Option Nat) (min : Nat) (r : Option Nat),
      bestFitLoop pages l k fuel le page min = .ok r →
      bestFitLoop pages l k (fuel + d) le page min = .ok r := by
  intro fuel
  induction fuel with
  | zero => intro le page min r h; cases h
  | succ fuel ih =>
      intro le page min r h
      rw [Nat.add_right_comm, bestFitLoop]
      rw [bestFitLoop] at h
      split at h
      · exact h
      · split at h
        · rename_i hp
          rw [if_pos hp]
          exact ih _ _ _ _ h
        · rename_i hp
          rw [if_neg hp]
          exact ih _ _ _ _ h

/-- More fuel does not change the result of an allocation. -/
theorem bestFitAllocPages_mono {fuel d : Nat} {r : Option Nat × FreeArea}
    (h : bestFitAllocPages fuel s k = .ok r) : bestFitAllocPages (fuel + d) s k = .ok r := by
  unfold bestFitAllocPages at h ⊢
  by_cases hk : k = 0
  · rw [if_pos hk] at h; cases h
  · rw [if_neg hk] at h ⊢
    by_cases hn : s.nrFree < k
    · rw [if_pos hn] at h ⊢
      exact h
    · rw [if_neg hn] at h ⊢
      cases hl : bestFitLoop s.pages s.links k fuel freeListHead none (uint (s.nrFree + 1)) with
      | error e => rw [hl] at h; cases h
      | ok q =>
          rw [hl] at h
          rw [bestFitLoop_mono _ _ _ d _ _ _ _ _ hl]
          exact h

/-- What is known of any call of `best_fit_alloc_pages` that returns. -/
theorem bestFitAllocPages_cases {fuel : Nat} {r : Option Nat × FreeArea}
    (h : FreeArea.Inv s fs live a n) (hn : n + 1 < 2 ^ 32)
    (hr : bestFitAllocPages fuel s k = .ok r) :
    (r = (none, s) ∧ ∀ b ∈ fs, b.len < k) ∨
    ∃ us b vs, fs = us ++ b :: vs ∧ Leftmost k us b vs ∧
      r = (some b.start, takePages s b.start k) ∧
      FreeArea.Inv (takePages s b.start k) (us ++ (remainder b k ++ vs))
        (⟨b.start, k⟩ :: live) a n := by
  have hk : 0 < k := by
    by_contra hk0
    rw [bestFitAllocPages, if_pos (by omega)] at hr
    cases hr
  have hr' := bestFitAllocPages_mono (d := fs.length + 1) hr
  rcases bestFitAllocPages_spec h hk hn (show fs.length < fuel + (fs.length + 1) by omega) with
    ⟨hok, hshort⟩ | ⟨us, b, vs, hfs, hleft, hok, hinv⟩
  · rw [hok] at hr'
    exact Or.inl ⟨(Except.ok.inj hr').symm, hshort⟩
  · rw [hok] at hr'
    exact Or.inr ⟨us, b, vs, hfs, hleft, (Except.ok.inj hr').symm, hinv⟩

/-! ### Runs -/

/-- One call keeps the invariant. A call of `best_fit_free_pages` is one of the first-fit
manager. -/
theorem bestFit_exec_inv {t u : PmmSys FreeArea} {fuel : Nat} {op : PmmOp} (hn : n + 1 < 2 ^ 32)
    (h : FreeArea.Inv t.mgr fs t.live a n) (hl : PmmManager.Legal t op) (hc : NoTailInsert t op)
    (he : bestFitPmmManager.exec fuel t op = .ok u) :
    ∃ fs', FreeArea.Inv u.mgr fs' u.live a n := by
  cases op with
  | alloc k =>
      cases hr : bestFitAllocPages fuel t.mgr k with
      | error e => simp [PmmManager.exec, bestFitPmmManager, hr] at he; cases he
      | ok r =>
          simp only [PmmManager.exec, bestFitPmmManager, hr] at he
          rcases bestFitAllocPages_cases h hn hr with ⟨rfl, -⟩ | ⟨us, b, vs, -, -, rfl, hinv⟩
          · cases he
            exact ⟨fs, h⟩
          · cases he
            exact ⟨_, hinv⟩
  | free b =>
      have he' : defaultPmmManager.exec fuel t (.free b) = .ok u := he
      exact exec_inv h hl hc he'

/-- The invariant holds in every state of a run that never inserts at the tail. -/
theorem bestFit_inv_of_run {s₀ : FreeArea} {sys t : PmmSys FreeArea} (hn : n + 1 < 2 ^ 32)
    (hs : bestFitPmmManager.Start s₀ a n sys) (h : bestFitPmmManager.Run NoTailInsert sys t) :
    ∃ fs, FreeArea.Inv t.mgr fs t.live a n := by
  obtain ⟨fuel, mgr, hinit, rfl⟩ := hs
  apply PmmManager.Run.invariant _ h
  · have hinit' : defaultInitMemmap fuel (defaultInit s₀) a n = .ok mgr := hinit
    exact ⟨_, defaultInitMemmap_inv (Nat.lt_of_succ_lt hn) hinit'⟩
  · rintro t u fuel op ⟨fs, hfs⟩ hl hc he
    exact bestFit_exec_inv hn hfs hl hc he

/-- The smallest maximal run of cells of `F` with `k` cells at least, the one with the lowest
address among equals. -/
structure BestFit (F : Nat → Prop) (k : Nat) (b : Span) : Prop where
  run : MaxRun F b
  long : k ≤ b.len
  least : ∀ c, MaxRun F c → k ≤ c.len → b.len < c.len ∨ b.len = c.len ∧ b.start ≤ c.start

/-- The first of the smallest blocks of the free list is the best fit. -/
theorem FreeArea.Inv.bestFit (h : FreeArea.Inv s (us ++ b :: vs) live a n)
    (hleft : Leftmost k us b vs) : BestFit (FreePage ⟨s, live⟩ a n) k b := by
  have hpos : ∀ c ∈ us ++ b :: vs, 0 < c.len :=
    fun c hc => h.lenPos c (List.mem_append_left live hc)
  have hiff := fun c => mem_iff_maxRun h.gapped hpos h.freePage_iff c
  refine ⟨(hiff b).mp (by simp), hleft.long, fun c hc hkc => ?_⟩
  rcases List.mem_append.mp ((hiff c).mpr hc) with hu | hv
  · exact Or.inl (hleft.left c hu hkc)
  · rcases List.mem_cons.mp hv with rfl | hv
    · exact Or.inr ⟨rfl, Nat.le_refl _⟩
    · -- behind `b` the blocks have higher addresses
      have hgap := (List.pairwise_cons.mp (List.pairwise_append.mp h.gapped).2.1).1 c hv
      have hle := hleft.right c hv hkc
      unfold Span.stop at hgap
      omega

/-- **`best_fit_alloc_pages` is best fit.** After every run in which no block is freed behind the
last free block, the free list is the list of the maximal runs of free pages. The next request
returns. It returns `NULL` if and only if no maximal run is long enough, and nothing changes then.
Otherwise it returns the first pages of the best fit, which are free. What remains of this
run takes its place on the free list. -/
theorem bestFit_of_run {s₀ : FreeArea} {sys t : PmmSys FreeArea} (hn : n + 1 < 2 ^ 32)
    (hs : bestFitPmmManager.Start s₀ a n sys) (h : bestFitPmmManager.Run NoTailInsert sys t) :
    ∃ ps, Canonical t a n ps ∧ ∀ k, 0 < k →
      (∃ fuel r, bestFitAllocPages fuel t.mgr k = .ok r) ∧
      ∀ fuel r, bestFitAllocPages fuel t.mgr k = .ok r →
        (r = (none, t.mgr) ∧ ¬ ∃ c, MaxRun (FreePage t a n) c ∧ k ≤ c.len) ∨
        ∃ b, r.1 = some b.start ∧ BestFit (FreePage t a n) k b ∧
          (∀ p ∈ (⟨b.start, k⟩ : Span), ∀ f ∈ t.live, p ∉ f) ∧
          ∃ us vs ps', blocksAt t.mgr ps = us ++ b :: vs ∧
            blocksAt r.2 ps' = us ++ (remainder b k ++ vs) ∧
            Canonical ⟨r.2, ⟨b.start, k⟩ :: t.live⟩ a n ps' := by
  obtain ⟨fs, hfs⟩ := bestFit_inv_of_run hn hs h
  have hpos : ∀ c ∈ fs, 0 < c.len := fun c hc => hfs.lenPos c (List.mem_append_left _ hc)
  refine ⟨fs.map Span.start, hfs.canonical, fun k hk => ⟨?_, fun fuel r hr => ?_⟩⟩
  · rcases bestFitAllocPages_spec hfs hk hn (Nat.lt_succ_self fs.length) with
      ⟨hok, -⟩ | ⟨us, b, vs, -, -, hok, -⟩
    · exact ⟨_, _, hok⟩
    · exact ⟨_, _, hok⟩
  · rcases bestFitAllocPages_cases hfs hn hr with
      ⟨rfl, hshort⟩ | ⟨us, b, vs, rfl, hleft, rfl, hinv⟩
    · refine Or.inl ⟨rfl, ?_⟩
      rintro ⟨c, hc, hkc⟩
      have hmem := (mem_iff_maxRun hfs.gapped hpos hfs.freePage_iff c).mpr hc
      have hlt := hshort c hmem
      omega
    · have hbest := hfs.bestFit hleft
      refine Or.inr ⟨b, rfl, hbest, fun p hp => ?_, us, vs, _, hfs.blocksAt_eq,
        hinv.blocksAt_eq, hinv.canonical⟩
      -- the pages lie in the run, and a page of the run is free
      have hpb : p ∈ b := by
        have hlong := hbest.long
        simp only [Span.mem_iff] at hp ⊢
        omega
      exact (hbest.run.inside p hpb).2

/-! ### Runs on seven pages -/

/-- The best-fit manager of a region of seven pages. -/
def sevenPagesBestFit : Except Halt FreeArea :=
  bestFitInitMemmap 10 (bestFitInit reservedMemory) 0 7

/-- The client's part of `frontInsert_bestFit`, with the links it relies on. -/
def frontInsertBestFitCheck : Except Halt Bool := do
  let mgr ← sevenPagesBestFit
  let t ← bestFitPmmManager.exec 10 ⟨mgr, []⟩ (.alloc 1)
  let u ← bestFitPmmManager.exec 10 t (.alloc 2)
  let v ← bestFitPmmManager.exec 10 u (.alloc 1)
  let w ← bestFitPmmManager.exec 10 v (.free ⟨1, 2⟩)
  return v.live == [⟨3, 1⟩, ⟨1, 2⟩, ⟨0, 1⟩] && v.mgr.links.next freeListHead == .page 4 &&
    v.mgr.links.next (.page 4) == freeListHead && w.live == [⟨3, 1⟩, ⟨0, 1⟩]

/-- Allocating the pages 0 to 3 and freeing two of them, in front of the rest. -/
theorem frontInsertBestFit_run :
    ∃ s t, bestFitPmmManager.Start reservedMemory 0 7 s ∧
      bestFitPmmManager.Run NoTailInsert s t ∧ t.live = [⟨3, 1⟩, ⟨0, 1⟩] := by
  have hcheck : frontInsertBestFitCheck = .ok true := by decide +kernel
  unfold frontInsertBestFitCheck at hcheck
  obtain ⟨mgr, hinit, hcheck⟩ := Halt.bind_eq_ok.mp hcheck
  obtain ⟨t, ht, hcheck⟩ := Halt.bind_eq_ok.mp hcheck
  obtain ⟨u, hu, hcheck⟩ := Halt.bind_eq_ok.mp hcheck
  obtain ⟨v, hv, hcheck⟩ := Halt.bind_eq_ok.mp hcheck
  obtain ⟨w, hw, hcheck⟩ := Halt.bind_eq_ok.mp hcheck
  have hand := Except.ok.inj hcheck
  simp only [Bool.and_eq_true, beq_iff_eq] at hand
  obtain ⟨⟨⟨hlive, hnext⟩, hlast⟩, hend⟩ := hand
  have hinside : InsertsInside v.mgr 1 := by
    refine Or.inr ⟨[4], ⟨hnext, hlast⟩, 4, by simp, by decide⟩
  have hlegal : PmmManager.Legal v (.free ⟨1, 2⟩) := by
    simp [PmmManager.Legal, hlive]
  have halloc : ∀ {x y : PmmSys FreeArea} {k : Nat},
      bestFitPmmManager.Run NoTailInsert ⟨mgr, []⟩ x →
      bestFitPmmManager.exec 10 x (.alloc k) = .ok y →
      bestFitPmmManager.Run NoTailInsert ⟨mgr, []⟩ y :=
    fun {x y k} hx hy => .step hx (show PmmManager.Legal x (.alloc k) from trivial) trivial hy
  exact ⟨⟨mgr, []⟩, w, ⟨10, mgr, hinit, rfl⟩,
    .step (halloc (halloc (halloc .refl ht) hu) hv) hlegal hinside hw, hend⟩

/-- Two pages are asked for. The free runs are the pages 1 and 2 and the pages 4 to 6, and the
smaller one is taken. -/
theorem frontInsert_bestFit :
    ∃ s t, bestFitPmmManager.Start reservedMemory 0 7 s ∧
      bestFitPmmManager.Run NoTailInsert s t ∧ t.live = [⟨3, 1⟩, ⟨0, 1⟩] ∧
      ∃ fuel r, bestFitAllocPages fuel t.mgr 2 = .ok r ∧ r.1 = some 1 := by
  obtain ⟨s, t, hs, hrun, hlive⟩ := frontInsertBestFit_run
  obtain ⟨ps, -, hfit⟩ := bestFit_of_run (by decide) hs hrun
  obtain ⟨⟨fuel, r, hr⟩, -⟩ := hfit 2 (by decide)
  refine ⟨s, t, hs, hrun, hlive, fuel, r, hr, ?_⟩
  have hfree : ∀ p, FreePage t 0 7 p ↔ p < 7 ∧ p ≠ 3 ∧ p ≠ 0 := by
    intro p
    unfold FreePage
    rw [hlive]
    simp only [Span.mem_iff, List.mem_cons, List.not_mem_nil, or_false, forall_eq_or_imp, forall_eq]
    omega
  have htwo : MaxRun (FreePage t 0 7) ⟨1, 2⟩ := by
    refine ⟨by decide, fun p hp => ?_, fun p hp => ?_, ?_⟩
    · rw [hfree]
      simp only [Span.mem_iff] at hp
      omega
    · rw [hfree]
      simp only at hp
      omega
    · rw [hfree]
      decide
  rcases (hfit 2 (by decide)).2 fuel r hr with ⟨-, hno⟩ | ⟨b, hstart, hbest, -⟩
  · exact absurd ⟨_, htwo, Nat.le_refl 2⟩ hno
  · have hlong := hbest.long
    have hin := (hfree b.start).mp (hbest.run.inside b.start (by
      simp only [Span.mem_iff]
      omega))
    have hleast := hbest.least _ htwo (Nat.le_refl 2)
    rw [hstart]
    simp only at hleast
    congr 1
    omega

/-- The page that the last of the calls returns, and the allocations that are live before it. -/
def lastRequest (ops : List PmmOp) (k : Nat) : Except Halt (Option Nat × List Span) := do
  let mgr ← sevenPagesBestFit
  let t ← bestFitPmmManager.execAll 10 ⟨mgr, []⟩ ops
  let r ← bestFitAllocPages 10 t.mgr k
  return (r.1, t.live)

/-- The block of the pages 2 and 3 goes behind the page 0. It then stays on the free list when it is
allocated, and the next request gets it once more. -/
theorem tailInsert_returns_live_page :
    ¬ ∀ (s₀ : FreeArea) (a n : Nat) (s t : PmmSys FreeArea), n + 1 < 2 ^ 32 →
      bestFitPmmManager.Start s₀ a n s → bestFitPmmManager.Run PmmManager.Always s t →
        ∀ k fuel r p, 0 < k → bestFitAllocPages fuel t.mgr k = .ok r → r.1 = some p →
          ∀ f ∈ t.live, p ∉ f := by
  intro hall
  have hlast : lastRequest tailInsertCalls.dropLast 2 =
      .ok (some 2, [⟨2, 2⟩, ⟨4, 2⟩, ⟨1, 1⟩]) := by
    decide +kernel
  unfold lastRequest at hlast
  obtain ⟨mgr, hinit, hlast⟩ := Halt.bind_eq_ok.mp hlast
  obtain ⟨t, hrun, hlast⟩ := Halt.bind_eq_ok.mp hlast
  obtain ⟨r, hr, hlast⟩ := Halt.bind_eq_ok.mp hlast
  obtain ⟨hpage, hlive⟩ := Prod.mk.inj (Except.ok.inj hlast)
  have hout := hall reservedMemory 0 7 ⟨mgr, []⟩ t (by decide) ⟨10, mgr, hinit, rfl⟩
    (bestFitPmmManager.run_of_execAll hrun) 2 10 r 2 (by decide) hr hpage ⟨2, 2⟩ (by
      rw [hlive]
      simp)
  exact hout (by decide)

end Ucore.Proofs.Mm
