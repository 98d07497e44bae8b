import Ucore.Mm.PageInit
import Ucore.Proofs.Mm.BuddyBlocks

/-!
# `Ucore.Proofs.Mm.BuddyBounds`: which buddies lie behind `pages[]`

`buddy_of` compares an index with `npage`, and `pages[]` has `npage - nbase` descriptors. So the
comparison stops nothing, and what keeps the index inside is the region alone: the buddy of the last
aligned block must not begin where the region ends (`buddiesInside_of`). Then the manager does the
same as one with the right bound (`mergeLoop_bounded`). Otherwise a few allocations and one release
reach the first descriptor behind the array (`exists_run_behind`).

## The condition is enough

`bounded m` is the manager with the bound `m` in the place of `npage`. None of its functions but the
merge loop reads the bound, so they commute with `bounded`. The merge loop reads it for the buddies
of aligned blocks of the region only, and when these lie below `m` both bounds give the same answer
(`freeBlock_bounded`). `InArray` is the invariant of a run: the state of the manager is that of the
bounded one.

## The condition is needed

When some block of order `j` at the end of the region has its buddy where the region ends, the
client asks for blocks of this order until it gets that one (`exists_run_to_block`, by induction on
the place of the block in its list), and frees it. The first thing that `buddy_free_pages` inspects
is the buddy.

`buddy_in_bounds` is the equivalence, on the size of the memory and the end of the kernel, from
`page_init` on.
-/

set_option autoImplicit false

namespace Ucore.Proofs.Mm

open Ucore.Lib
open Ucore.Libs
open Ucore.Mm

variable {s s' : BuddyAreas} {F : Nat → List Nat} {rest live : List Span} {a n m k p : Nat}

/-! ### The same manager with another bound -/

/-- The manager with the bound `m` in place of `npage`. -/
def bounded (m : Nat) (s : BuddyAreas) : BuddyAreas := { s with npage := m }

/-- Splitting does not depend on where the descriptors end. -/
theorem splitLoop_bounded (p k : Nat) : ∀ (j : Nat) (s : BuddyAreas),
    splitLoop p k j (bounded m s) = bounded m (splitLoop p k j s) := by
  intro j
  induction j with
  | zero => exact fun _ => rfl
  | succ j ih =>
      intro s
      rw [splitLoop, splitLoop]
      by_cases h : k < j + 1
      · rw [if_pos h, if_pos h]
        exact ih (pushBlock s (p + 1 <<< j) j)
      · rw [if_neg h, if_neg h]

/-- `buddy_alloc_pages` does not look at the bound. -/
theorem buddyAllocPages_bounded (fuel : Nat) (s : BuddyAreas) (k : Nat) :
    buddyAllocPages fuel (bounded m s) k =
      (buddyAllocPages fuel s k).map fun r => (r.1, bounded m r.2) := by
  unfold buddyAllocPages
  by_cases hk : k = 0
  · rw [if_pos hk, if_pos hk]
    rfl
  · rw [if_neg hk, if_neg hk]
    cases hord : orderOf fuel k with
    | error e => rfl
    | ok order =>
        simp only [bind, Except.bind]
        have hlinks : (bounded m s).links = s.links := rfl
        rw [hlinks]
        cases findArea s.links (maxOrder - order) order with
        | none => rfl
        | some j =>
            show takeBlock (bounded m s) j order = (takeBlock s j order).map _
            unfold takeBlock
            rw [hlinks]
            cases s.links.next (.head j) with
            | head i => rfl
            | page p =>
                have hdrop : dropBlock (bounded m s) p j = bounded m (dropBlock s p j) := rfl
                dsimp only
                rw [hdrop, splitLoop_bounded]
                rfl

/-- Filling the lists does not depend on where the descriptors end. -/
theorem buddyFillLoop_bounded (base n : Nat) : ∀ (fuel i : Nat) (s : BuddyAreas),
    buddyFillLoop base n fuel i (bounded m s) =
      (buddyFillLoop base n fuel i s).map (bounded m) := by
  intro fuel
  induction fuel with
  | zero => exact fun _ _ => rfl
  | succ fuel ih =>
      intro i s
      rw [buddyFillLoop, buddyFillLoop]
      by_cases h : i < n
      · rw [if_pos h, if_pos h]
        exact ih _ (pushBlock s (base + i) (maxFitLoop (base + i) i n (maxOrder - 1) 0))
      · rw [if_neg h, if_neg h]
        rfl

/-- `buddy_init_memmap` does not depend on where the descriptors end. -/
theorem buddyInitMemmap_bounded (fuel : Nat) (s : BuddyAreas) (base n : Nat) :
    buddyInitMemmap fuel (bounded m s) base n =
      (buddyInitMemmap fuel s base n).map (bounded m) := by
  unfold buddyInitMemmap
  by_cases h : n = 0
  · rw [if_pos h, if_pos h]
    rfl
  · rw [if_neg h, if_neg h]
    have hpages : (bounded m s).pages = s.pages := rfl
    rw [hpages]
    cases buddyClearLoop n base s.pages with
    | error e => rfl
    | ok pages => exact buddyFillLoop_bounded base n fuel 0 { s with pages := pages }

/-! ### Merging inside the array -/

/-- The buddies of the aligned blocks of the region, but for the largest order, lie below `m`. -/
def BuddiesInside (a n m : Nat) : Prop :=
  ∀ k p, k + 1 < maxOrder → 2 ^ k ∣ p → a ≤ p → p + 2 ^ k ≤ a + n → p ^^^ 2 ^ k < m

/-- Only the last block can have its buddy behind the region, when its index is even. -/
theorem buddiesInside_of (hend : n ≠ 0 → a + n = m)
    (hlast : ∀ j, j + 1 < maxOrder → m % 2 ^ (j + 1) = 2 ^ j → n < 2 ^ j) :
    BuddiesInside a n m := by
  intro k p hk hdvd hap hpe
  have hpos : 0 < 2 ^ k := Nat.two_pow_pos k
  have hm : a + n = m := hend (by omega)
  rcases xor_two_pow hdvd with ⟨hd, he⟩ | ⟨-, he⟩
  · rw [he]
    by_contra hge
    have hpm : m = p + 2 ^ k := by omega
    -- the block ends where the region ends, and its index is even
    have hmod : m % 2 ^ (k + 1) = 2 ^ k := by
      obtain ⟨c, hc⟩ := hd
      rw [hpm, hc, Nat.mul_add_mod]
      exact Nat.mod_eq_of_lt (by rw [Nat.pow_succ]; omega)
    have hsmall := hlast k hk hmod
    omega
  · omega

/-- A span in hand lies in the region. -/
theorem shape_in_region {hand : Option Nat} (h : BuddyAreas.Shape s F (⟨p, 2 ^ k⟩ :: rest) hand a n) :
    a ≤ p ∧ p + 2 ^ k ≤ a + n := by
  have hpos : 0 < 2 ^ k := Nat.two_pow_pos k
  have hmem : (⟨p, 2 ^ k⟩ : Span) ∈ freeBlocks F ++ ⟨p, 2 ^ k⟩ :: rest := by simp
  have hfirst := h.tiles.subset (p := p) hmem (by simp only [Span.mem_iff]; omega)
  have hlast := h.tiles.subset (p := p + 2 ^ k - 1) hmem (by simp only [Span.mem_iff]; omega)
  simp only [Span.mem_iff] at hfirst hlast
  omega

/-- Merging leaves the number of descriptors. -/
theorem mergeLoop_npage : ∀ (d : Nat) (s : BuddyAreas) (blk pk : Nat),
    (mergeLoop d s blk pk).1.npage = s.npage := by
  intro d
  induction d with
  | zero => exact fun _ _ _ => rfl
  | succ d ih =>
      intro s blk pk
      rw [mergeLoop]
      cases buddyOf s blk pk with
      | none => rfl
      | some buddy =>
          dsimp only
          split
          · rfl
          · rw [ih]
            rfl

/-- Putting a block back leaves the number of descriptors. -/
theorem freeBlock_npage (s : BuddyAreas) (cur curK : Nat) :
    (freeBlock s cur curK).npage = s.npage :=
  mergeLoop_npage _ { s with pages := (s.pages.setProperty cur (1 <<< curK)).setPageProperty cur }
    cur curK

/-- With the buddies below `m`, the merge loop looks at nothing else and does what it does with
the bound `m`. -/
theorem mergeLoop_bounded (hin : BuddiesInside a n m) :
    ∀ (d : Nat) (s : BuddyAreas) (F : Nat → List Nat) (blk pk : Nat), pk + d < maxOrder →
      2 ^ pk ∣ blk → m ≤ s.npage →
      BuddyAreas.Shape (bounded m s) F (⟨blk, 2 ^ pk⟩ :: rest) (some blk) a n →
      mergeLoop d (bounded m s) blk pk =
          (bounded m (mergeLoop d s blk pk).1, (mergeLoop d s blk pk).2) ∧
        ∀ q ∈ mergeInspects d s blk pk, q < m := by
  intro d
  induction d with
  | zero =>
      intro s F blk pk _ _ _ _
      exact ⟨rfl, fun q hq => by cases hq⟩
  | succ d ih =>
      intro s F blk pk hd hblk hle h
      obtain ⟨hap, hpe⟩ := shape_in_region h
      -- The buddy lies inside, so neither bound stops the loop here.
      have hbuddy := hin pk blk (by omega) hblk hap hpe
      obtain ⟨low, hlow, hdvd, hjoin⟩ := buddies_join hblk
      have hne : blk ^^^ 2 ^ pk ≠ blk := xor_two_pow_ne blk pk
      have hsome : buddyOf s blk pk = some (blk ^^^ 2 ^ pk) := by
        rw [buddyOf, Nat.one_shiftLeft]
        exact if_neg (by omega)
      have hsome' : buddyOf (bounded m s) blk pk = some (blk ^^^ 2 ^ pk) := by
        rw [buddyOf, Nat.one_shiftLeft]
        exact if_neg (Nat.not_le.mpr hbuddy)
      rw [mergeLoop, mergeLoop, mergeInspects, hsome, hsome']
      generalize blk ^^^ 2 ^ pk = buddy at *
      have hpages : (bounded m s).pages = s.pages := rfl
      dsimp only
      rw [hpages]
      by_cases hbusy : (!(s.pages buddy).flags.property ||
          decide ((s.pages buddy).property ≠ 1 <<< pk)) = true
      · rw [if_pos hbusy, if_pos hbusy, if_pos hbusy]
        refine ⟨rfl, fun q hq => ?_⟩
        rw [List.mem_singleton.mp hq]
        exact hbuddy
      · rw [if_neg hbusy, if_neg hbusy, if_neg hbusy, ← hlow]
        simp only [Bool.or_eq_true, Bool.not_eq_true', decide_eq_true_eq, ne_eq, not_or,
          Bool.not_eq_false, not_not, Nat.one_shiftLeft] at hbusy
        obtain ⟨hpk, hmem⟩ := mem_of_flag h hbuddy hne hbusy.1 hbusy.2
        obtain ⟨ys, zs, hF⟩ := List.append_of_mem hmem
        obtain ⟨hloop, hinspects⟩ := ih
          { dropBlock s buddy pk with
              pages := (dropBlock s buddy pk).pages.clearPageProperty blk } _ low (pk + 1)
          (by omega) hdvd hle (mergeStep_shape h hpk hF hjoin)
        refine ⟨hloop, fun q hq => ?_⟩
        rcases List.mem_cons.mp hq with rfl | hq
        · exact hbuddy
        · exact hinspects q hq

/-- So does the freeing of one block. -/
theorem freeBlock_bounded (hin : BuddiesInside a n m) (hle : m ≤ s.npage) (hk : k < maxOrder)
    (hdvd : 2 ^ k ∣ p) (h : BuddyAreas.Shape (bounded m s) F (⟨p, 2 ^ k⟩ :: rest) none a n) :
    freeBlock (bounded m s) p k = bounded m (freeBlock s p k) ∧
      ∀ q ∈ blockInspects s p k, q < m := by
  obtain ⟨hloop, hinspects⟩ := mergeLoop_bounded hin (maxOrder - 1 - k)
    { s with pages := (s.pages.setProperty p (1 <<< k)).setPageProperty p } F p k (by omega) hdvd
    hle (markBlock_shape h)
  refine ⟨?_, hinspects⟩
  have heq : freeBlock (bounded m s) p k =
      pushBlock (mergeLoop (maxOrder - 1 - k)
        (bounded m { s with pages := (s.pages.setProperty p (1 <<< k)).setPageProperty p })
        p k).1 (mergeLoop (maxOrder - 1 - k)
        (bounded m { s with pages := (s.pages.setProperty p (1 <<< k)).setPageProperty p })
        p k).2.1 (mergeLoop (maxOrder - 1 - k)
        (bounded m { s with pages := (s.pages.setProperty p (1 <<< k)).setPageProperty p })
        p k).2.2 := rfl
  rw [heq, hloop]
  rfl

/-- One block holds all of an allocation, so `buddy_free_pages` looks at the buddies of one. -/
theorem mem_buddyFreeInspects {fuel q : Nat} {b : Span} (hpos : 0 < b.len)
    (hdvd : 2 ^ Nat.clog 2 b.len ∣ b.start) (hq : q ∈ buddyFreeInspects fuel s b.start b.len) :
    q ∈ blockInspects s b.start (Nat.clog 2 b.len) := by
  unfold buddyFreeInspects at hq
  cases fuel with
  | zero => cases hq
  | succ fuel =>
      rw [freeLoopInspects, if_pos hpos] at hq
      cases hord : orderOf fuel (b.len - 0) with
      | error e =>
          rw [hord] at hq
          cases hq
      | ok order =>
          have hclog := orderOf_eq (by omega) hord
          rw [Nat.sub_zero] at hclog
          have halign : alignOrder b.start order = Nat.clog 2 b.len := by
            rw [hclog]
            exact alignOrder_eq hdvd
          rw [hord] at hq
          simp only [Nat.add_zero, halign, Nat.zero_add, Nat.one_shiftLeft] at hq
          rcases List.mem_append.mp hq with hq | hq
          · exact hq
          · -- the loop ends at its next test
            have hall : b.len ≤ 2 ^ Nat.clog 2 b.len := Nat.le_pow_clog (by omega) _
            cases fuel with
            | zero => cases hq
            | succ fuel =>
                rw [freeLoopInspects, if_neg (by omega)] at hq
                cases hq

/-! ### Runs -/

/-- The invariant of the manager, with the number of descriptors as its bound. -/
structure InArray (a n m : Nat) (t : PmmSys BuddyAreas) : Prop where
  le : m ≤ t.mgr.npage
  inv : ∃ F, BuddyAreas.Inv (bounded m t.mgr) F t.live a n

/-- A call of `buddy_alloc_pages` keeps it. -/
theorem InArray.alloc {t u : PmmSys BuddyAreas} {fuel : Nat} (h : InArray a n m t)
    (he : buddyPmmManager.exec fuel t (.alloc k) = .ok u) : InArray a n m u := by
  obtain ⟨hle, F, hinv⟩ := h
  obtain ⟨⟨r, mgr⟩, hok, he⟩ := Halt.bind_eq_ok.mp he
  replace hok : buddyAllocPages fuel t.mgr k = .ok (r, mgr) := hok
  have hnp : mgr.npage = t.mgr.npage := by
    have hself := buddyAllocPages_bounded (m := t.mgr.npage) fuel t.mgr k
    rw [show bounded t.mgr.npage t.mgr = t.mgr from rfl, hok] at hself
    exact congrArg (fun r => r.2.npage) (Except.ok.inj hself)
  have hok' : buddyAllocPages fuel (bounded m t.mgr) k = .ok (r, bounded m mgr) := by
    rw [buddyAllocPages_bounded, hok]
    rfl
  rcases buddyAllocPages_inv hinv hok' with ⟨rfl, heq⟩ | ⟨p, F', rfl, hinv', -⟩
  · cases he
    exact ⟨hnp ▸ hle, F, heq ▸ hinv⟩
  · cases he
    exact ⟨hnp ▸ hle, F', hinv'⟩

/-- So does a call of `buddy_free_pages`, when the buddies lie inside. -/
theorem InArray.free {t u : PmmSys BuddyAreas} {fuel : Nat} {b : Span} (hin : BuddiesInside a n m)
    (h : InArray a n m t) (hb : b ∈ t.live)
    (he : buddyPmmManager.exec fuel t (.free b) = .ok u) : InArray a n m u := by
  obtain ⟨hle, F, hinv⟩ := h
  obtain ⟨mgr, hok, he⟩ := Halt.bind_eq_ok.mp he
  cases he
  obtain ⟨hpos, hsmall, hdvd⟩ := hinv.live b hb
  have hmgr := buddyFreePages_eq hpos hdvd hok
  have hshape := hinv.shape_of_mem hb
  obtain ⟨F', hfree, -⟩ := freeBlock_shape hshape hsmall hdvd
  rw [(freeBlock_bounded hin hle hsmall hdvd hshape).1, ← hmgr] at hfree
  refine ⟨?_, F', hfree, fun c hc => hinv.live c (List.mem_of_mem_erase hc)⟩
  show m ≤ mgr.npage
  rw [hmgr, freeBlock_npage]
  exact hle

/-- Then no call of `buddy_free_pages` looks behind the array. -/
theorem InArray.inspects {t : PmmSys BuddyAreas} {fuel : Nat} {b : Span}
    (hin : BuddiesInside a n m) (h : InArray a n m t) (hb : b ∈ t.live) :
    ∀ q ∈ buddyFreeInspects fuel t.mgr b.start b.len, q < m := by
  obtain ⟨hle, F, hinv⟩ := h
  obtain ⟨hpos, hsmall, hdvd⟩ := hinv.live b hb
  intro q hq
  exact (freeBlock_bounded hin hle hsmall hdvd (hinv.shape_of_mem hb)).2 q
    (mem_buddyFreeInspects hpos hdvd hq)

/-! ### The region that `page_init` makes -/

/-- The descriptors are those of the pages from `nbase` on, and the region ends with them. -/
theorem pageInit_layout {memBase memSize kernEnd : Nat} {layout : PageLayout}
    (h : pageInit memBase memSize kernEnd = .ok layout) :
    layout.npage = layout.count + nbase ∧
      ∀ b, layout.region = some b → b.start + b.len = layout.count := by
  have hbase : nbase = 524288 := rfl
  have hpg : pgSize = 4096 := rfl
  have htop : kernTop = 0xFFFFFFFFC8000000 := rfl
  have hkern : kernBase = 0xFFFFFFFFC0200000 := rfl
  unfold pageInit roundDown vaPaOffset sizeofPage kernMapped at h
  rw [hbase, hpg, htop, hkern] at h
  by_cases hsize : memSize = 0
  · rw [if_pos hsize] at h
    cases h
  rw [if_neg hsize] at h
  have hmem : (memBase + memSize) % 2 ^ 64 < 2 ^ 64 := Nat.mod_lt _ (by decide)
  have hkend : (kernEnd + 4096 - 1) % 2 ^ 64 < 2 ^ 64 := Nat.mod_lt _ (by decide)
  dsimp only at h
  generalize (memBase + memSize) % 2 ^ 64 = memEnd at h hmem
  generalize (kernEnd + 4096 - 1) % 2 ^ 64 = kernEnd' at h hkend
  generalize hmax : (if 0xFFFFFFFFC8000000 < memEnd then 0xFFFFFFFFC8000000 else memEnd) = maxpa
    at h
  have hmaxpa : maxpa = memEnd ∨ maxpa = 0xFFFFFFFFC8000000 := by
    split at hmax
    · exact Or.inr hmax.symm
    · exact Or.inl hmax.symm
  rw [hbase]
  split at h
  · cases h
  · rename_i hmapped
    split at h
    · cases h
    · rename_i hkva
      split at h
      · rename_i hfree
        split at h
        · cases h
        · obtain rfl := Except.ok.inj h
          -- with all of the descriptors mapped, the memory ends far below `KERNTOP`
          refine ⟨?_, fun b hb => ?_⟩
          · dsimp only
            omega
          · obtain rfl := Option.some.inj hb
            dsimp only
            omega
      · obtain rfl := Except.ok.inj h
        refine ⟨?_, fun b hb => by cases hb⟩
        dsimp only
        omega

/-- Reserving pages leaves `PG_property`. -/
theorem reservePages_property (pages : Pages) (p : Nat) : ∀ n,
    (reservePages n pages p).flags.property = (pages p).flags.property := by
  intro n
  induction n with
  | zero => rfl
  | succ n ih =>
      rw [reservePages, Pages.setFlags_flags]
      split
      · rename_i heq
        rw [← ih, heq]
      · exact ih

/-- `buddy_init` keeps the descriptors and the bound. -/
theorem buddyInit_with (pages : Pages) (m : Nat) (s : BuddyAreas) :
    buddyInit { s with pages := pages, npage := m } =
      { buddyInit s with pages := pages, npage := m } := by
  have hloop : ∀ i, buddyInitLoop i { s with pages := pages, npage := m } =
      { buddyInitLoop i s with pages := pages, npage := m } := by
    intro i
    induction i with
    | zero => rfl
    | succ i ih =>
        rw [buddyInitLoop, ih]
        rfl
  exact hloop maxOrder

/-- The descriptors outside the region do not have `PG_property` when `page_init` begins. -/
def MemoryClear (s₀ : BuddyAreas) (layout : PageLayout) : Prop :=
  ∀ p < layout.count, (∀ b, layout.region = some b → p ∉ b) →
    (s₀.pages p).flags.property = false

/-- The first page and the number of pages of the region. -/
def regionOf (layout : PageLayout) : Span := layout.region.getD ⟨0, 0⟩

/-- The region ends with the descriptors. -/
theorem regionOf_end {memBase memSize kernEnd : Nat} {layout : PageLayout}
    (h : pageInit memBase memSize kernEnd = .ok layout) (hn : (regionOf layout).len ≠ 0) :
    (regionOf layout).start + (regionOf layout).len = layout.count := by
  cases hregion : layout.region with
  | none =>
      rw [regionOf, hregion] at hn
      exact absurd rfl hn
  | some b =>
      rw [regionOf, hregion]
      exact (pageInit_layout h).2 b hregion

/-- The state of the manager after `page_init`. -/
theorem buddyPmmInit_inv {s₀ : BuddyAreas} {fuel memBase memSize kernEnd : Nat}
    {layout : PageLayout} (hclear : MemoryClear s₀ layout)
    (hinit : buddyPmmInit fuel s₀ memBase memSize kernEnd = .ok (layout, s)) :
    s.npage = layout.npage ∧ pageInit memBase memSize kernEnd = .ok layout ∧
      ∃ F, BuddyAreas.Inv (bounded layout.count s) F [] (regionOf layout).start
        (regionOf layout).len ∧ NoBuddies F := by
  obtain ⟨layout', hlayout, hinit⟩ := Halt.bind_eq_ok.mp hinit
  have hpages : (buddyPmmManager.init s₀).pages = s₀.pages :=
    (buddyInitLoop_spec s₀ maxOrder).2.2.1
  rw [hpages] at hinit
  have hreserve := fun p => reservePages_property s₀.pages p layout'.count
  cases hregion : layout'.region with
  | none =>
      rw [hregion] at hinit
      obtain ⟨rfl, rfl⟩ := Prod.mk.inj (Except.ok.inj hinit)
      have hclear' : ∀ p < layout'.count,
          (reservePages layout'.count s₀.pages p).flags.property = false := by
        intro p hp
        rw [hreserve]
        exact hclear p hp fun b hb => by rw [hregion] at hb; cases hb
      have hempty : BuddyAreas.Shape
          { buddyInit { s₀ with npage := layout'.count } with
              pages := reservePages layout'.count s₀.pages } (fun _ => []) [] none 0 0 :=
        buddyInit_shape hclear' (Nat.zero_le _)
      have hwith := buddyInit_with s₀.pages layout'.count s₀
      rw [show regionOf layout' = ⟨0, 0⟩ by rw [regionOf, hregion]; rfl]
      refine ⟨rfl, hlayout, fun _ => [], ⟨?_, fun b hb => by cases hb⟩,
        fun _ _ _ hp => by cases hp⟩
      rw [show ({ s₀ with npage := layout'.count } : BuddyAreas) =
        { s₀ with pages := s₀.pages, npage := layout'.count } from rfl, hwith] at hempty
      exact hempty
  | some b =>
      rw [hregion] at hinit
      obtain ⟨s', hmemmap, hinit⟩ := Halt.bind_eq_ok.mp hinit
      obtain ⟨rfl, rfl⟩ := Prod.mk.inj (Except.ok.inj hinit)
      have hend := (pageInit_layout hlayout).2 b hregion
      -- the call does not look at the bound
      have hbound := fun m => buddyInitMemmap_bounded (m := m) fuel
        { buddyInit s₀ with
            npage := layout'.npage, pages := reservePages layout'.count s₀.pages } b.start b.len
      replace hmemmap : buddyInitMemmap fuel
          { buddyInit s₀ with
              npage := layout'.npage, pages := reservePages layout'.count s₀.pages }
          b.start b.len = .ok s' := hmemmap
      simp only [hmemmap] at hbound
      have hnp : s' = bounded layout'.npage s' := Except.ok.inj (hmemmap ▸ hbound layout'.npage)
      have hok := hbound layout'.count
      rw [show bounded layout'.count
          { buddyInit s₀ with
              npage := layout'.npage, pages := reservePages layout'.count s₀.pages } =
          buddyInit { s₀ with
            pages := reservePages layout'.count s₀.pages, npage := layout'.count } by
        rw [buddyInit_with]; rfl] at hok
      rw [show regionOf layout' = b by rw [regionOf, hregion]; rfl]
      refine ⟨by rw [hnp]; rfl, hlayout, ?_⟩
      apply buddyInitMemmap_inv _ (Nat.le_of_eq hend) hok
      intro p hp hout
      show (reservePages layout'.count s₀.pages p).flags.property = false
      rw [hreserve]
      exact hclear p hp fun c hc => by
        obtain rfl := Option.some.inj (hregion.symm.trans hc)
        exact hout

/-! ### The block behind whose end `buddy_free_pages` looks -/

/-- A request for a whole block of order `k` takes the first one of its list. -/
theorem BuddyAreas.Inv.alloc_head (h : BuddyAreas.Inv s F live a n) (hk : k < maxOrder) {zs : List Nat}
    (hF : F k = p :: zs) :
    ∃ s', buddyAllocPages 64 s (2 ^ k) = .ok (some p, s') ∧
      BuddyAreas.Inv s' (Function.update F k zs) (⟨p, 2 ^ k⟩ :: live) a n := by
  have hpow : 2 ^ k ≤ 2 ^ 15 := Nat.pow_le_pow_right (by omega) (Nat.le_of_lt hk)
  have hpos : 0 < 2 ^ k := Nat.two_pow_pos k
  have hclog : Nat.clog 2 (2 ^ k) = k := Nat.clog_pow 2 k (by omega)
  have hk64 : k < 64 := Nat.lt_trans hk (by decide)
  obtain ⟨order, hord⟩ := orderOf_returns (Nat.le_refl (2 ^ k)) hk64 hk64
  have horder : order = k := (orderOf_eq hpos hord).trans hclog
  rw [horder] at hord
  have hring := h.shape.rings.ring k hk
  have hempty : listEmpty s.links (.head k) = false := by
    rw [Bool.eq_false_iff]
    intro he
    have hnil := (listEmpty_iff hring).mp he
    rw [buddyNodes, hF] at hnil
    cases hnil
  -- the first list that the search looks at is the one of order `k`
  have hfind : findArea s.links (maxOrder - k) k = some k := by
    obtain ⟨d, hd⟩ := Nat.exists_eq_succ_of_ne_zero (Nat.sub_ne_zero_of_lt hk)
    rw [hd, findArea, hempty]
    rfl
  obtain ⟨r, ws, hF', hnext⟩ := h.shape.first hk hempty
  obtain ⟨rfl, rfl⟩ := List.cons.inj (hF.symm.trans hF')
  have hsplit : ∀ s, splitLoop p k k s = s := by
    intro s
    cases k with
    | zero => rfl
    | succ k => rw [splitLoop, if_neg (Nat.lt_irrefl _)]
  have hdrop := dropBlock_shape h.shape hk (show F k = [] ++ p :: zs from hF)
  refine ⟨{ dropBlock s p k with pages := (dropBlock s p k).pages.setPageRef p 0 }, ?_, ?_, ?_⟩
  · rw [buddyAllocPages_eq hpos hord, hfind, Option.elim_some, takeBlock, hnext]
    dsimp only
    rw [hsplit]
  · have hround : roundUp ⟨p, 2 ^ k⟩ = ⟨p, 2 ^ k⟩ := by rw [roundUp, hclog]
    rw [List.map_cons, hround]
    refine { hdrop with property := ?_, flag := ?_ }
    · intro i hi q hq
      rw [Pages.setPageRef_property]
      exact hdrop.property i hi q hq
    · intro q hq hh
      rw [Pages.setPageRef_flags]
      exact hdrop.flag q hq hh
  · intro b hb
    rcases List.mem_cons.mp hb with rfl | hb
    · dsimp only
      rw [hclog]
      exact ⟨hpos, hk, h.shape.aligned k hk p (by rw [hF]; exact List.mem_cons_self)⟩
    · exact h.live b hb

/-- So does a call of the client, whatever the bound is. -/
theorem exec_alloc_head {t : PmmSys BuddyAreas} (hk : k < maxOrder) {zs : List Nat}
    (hF : F k = p :: zs) (h : BuddyAreas.Inv (bounded m t.mgr) F t.live a n) :
    ∃ u, buddyPmmManager.exec 64 t (.alloc (2 ^ k)) = .ok u ∧ u.live = ⟨p, 2 ^ k⟩ :: t.live ∧
      u.mgr.npage = t.mgr.npage ∧
      BuddyAreas.Inv (bounded m u.mgr) (Function.update F k zs) u.live a n := by
  obtain ⟨s', hok, hinv⟩ := h.alloc_head hk hF
  rw [buddyAllocPages_bounded] at hok
  cases hmgr : buddyAllocPages 64 t.mgr (2 ^ k) with
  | error e =>
      rw [hmgr] at hok
      cases hok
  | ok r =>
      rw [hmgr] at hok
      obtain ⟨hr, rfl⟩ := Prod.mk.inj (Except.ok.inj hok)
      obtain ⟨page, mgr⟩ := r
      obtain rfl : page = some p := hr
      have hself := buddyAllocPages_bounded (m := t.mgr.npage) 64 t.mgr (2 ^ k)
      rw [show bounded t.mgr.npage t.mgr = t.mgr from rfl, hmgr] at hself
      have hnp : mgr.npage = t.mgr.npage := congrArg (fun r => r.2.npage) (Except.ok.inj hself)
      exact ⟨⟨mgr, ⟨p, 2 ^ k⟩ :: t.live⟩, Halt.bind_eq_ok.mpr ⟨_, hmgr, rfl⟩, rfl, hnp, hinv⟩

/-- So the client can get every block of order `k` that is on the list. -/
theorem exists_run_to_block {t₀ : PmmSys BuddyAreas} (hk : k < maxOrder) :
    ∀ (ys zs : List Nat) (F : Nat → List Nat) (t : PmmSys BuddyAreas), F k = ys ++ p :: zs →
      buddyPmmManager.Run PmmManager.Always t₀ t →
      BuddyAreas.Inv (bounded m t.mgr) F t.live a n →
      ∃ u, buddyPmmManager.Run PmmManager.Always t₀ u ∧ ⟨p, 2 ^ k⟩ ∈ u.live ∧
        u.mgr.npage = t.mgr.npage := by
  have hlegal : ∀ t : PmmSys BuddyAreas, PmmManager.Legal t (.alloc (2 ^ k)) := fun _ => trivial
  intro ys
  induction ys with
  | nil =>
      intro zs F t hF hrun hinv
      obtain ⟨u, he, hlive, hnp, -⟩ := exec_alloc_head hk hF hinv
      exact ⟨u, .step hrun (hlegal t) trivial he, by rw [hlive]; exact List.mem_cons_self, hnp⟩
  | cons y ys ih =>
      intro zs F t hF hrun hinv
      obtain ⟨u, he, -, hnp, hinv'⟩ := exec_alloc_head hk hF hinv
      obtain ⟨w, hrun', hmem, hnp'⟩ :=
        ih zs _ u (Function.update_self k _ F) (.step hrun (hlegal t) trivial he) hinv'
      exact ⟨w, hrun', hmem, hnp'.trans hnp⟩

/-- The first buddy that `buddy_free_pages` looks at. -/
theorem mem_freeInspects_of_buddy {q : Nat} (hk : k + 1 < maxOrder) (hdvd : 2 ^ k ∣ p)
    (hbuddy : buddyOf s p k = some q) : q ∈ buddyFreeInspects 65 s p (2 ^ k) := by
  have hpow : 2 ^ k ≤ 2 ^ 15 := Nat.pow_le_pow_right (by omega) (by unfold maxOrder at hk; omega)
  have hpos : 0 < 2 ^ k := Nat.two_pow_pos k
  have hclog : Nat.clog 2 (2 ^ k) = k := Nat.clog_pow 2 k (by omega)
  have hk64 : k < 64 := Nat.lt_trans (Nat.lt_of_succ_lt hk) (by decide)
  obtain ⟨order, hord⟩ := orderOf_returns (Nat.le_refl (2 ^ k)) hk64 hk64
  have horder : order = k := (orderOf_eq hpos hord).trans hclog
  rw [horder] at hord
  rw [buddyFreeInspects, freeLoopInspects, if_pos hpos, Nat.sub_zero, hord]
  simp only [Nat.add_zero, alignOrder_eq hdvd]
  apply List.mem_append_left
  -- the merge loop has a round left at the order `k`
  obtain ⟨d, hd⟩ := Nat.exists_eq_succ_of_ne_zero (show maxOrder - 1 - k ≠ 0 by omega)
  rw [blockInspects, hd, mergeInspects]
  rw [show buddyOf { s with pages := (s.pages.setProperty p (1 <<< k)).setPageProperty p } p k =
    some q from hbuddy]
  exact List.mem_cons_self

/-- The last aligned block of a region that is all free is on its list, when its buddy begins
where the region ends. -/
theorem mem_last_block (h : BuddyAreas.Inv s F [] a n) (hN : NoBuddies F) (hk : k + 1 < maxOrder)
    (hmod : (a + n) % 2 ^ (k + 1) = 2 ^ k) (hn : 2 ^ k ≤ n) :
    a + n - 2 ^ k ∈ F k ∧ 2 ^ (k + 1) ∣ a + n - 2 ^ k := by
  have hpos : 0 < 2 ^ k := Nat.two_pow_pos k
  have hdouble : 2 ^ (k + 1) = 2 ^ k + 2 ^ k := by rw [Nat.pow_succ]; omega
  have hdvd : 2 ^ (k + 1) ∣ a + n - 2 ^ k := by
    have hd := Nat.dvd_sub_mod (n := 2 ^ (k + 1)) (a + n)
    rwa [hmod] at hd
  have hfree : ∀ q, BuddyFree ⟨s, []⟩ a n q ↔ q ∈ (⟨a, n⟩ : Span) :=
    fun q => and_iff_left fun f hf => by cases hf
  have hmax : MaxBlock (BuddyFree ⟨s, []⟩ a n) (maxOrder - 1) k (a + n - 2 ^ k) := by
    refine ⟨by omega, two_pow_dvd_of_le hdvd (Nat.le_succ k), fun q hq => ?_, fun _ hall => ?_⟩
    · rw [hfree]
      simp only [Span.mem_iff] at hq ⊢
      omega
    · -- the block one order up has the first page behind the region
      rw [Nat.mod_eq_zero_of_dvd hdvd, Nat.sub_zero] at hall
      have hout := (hfree _).mp (hall (a + n) (by simp only [Span.mem_iff]; omega))
      simp only [Span.mem_iff] at hout
      omega
  exact ⟨(((h.coalesced hN).blocks k _).mpr hmax).2, hdvd⟩

/-! ### When no call looks behind `pages[]` -/

/-- After `page_init`, the client can free a block whose buddy begins where the region ends, when
such a block fits into the region. -/
theorem exists_run_behind {s₀ : BuddyAreas} {fuel memBase memSize kernEnd : Nat}
    {layout : PageLayout} (hclear : MemoryClear s₀ layout)
    (hinit : buddyPmmInit fuel s₀ memBase memSize kernEnd = .ok (layout, s)) (hk : k + 1 < maxOrder)
    (hmod : layout.count % 2 ^ (k + 1) = 2 ^ k) (hn : 2 ^ k ≤ (regionOf layout).len) :
    ∃ t, buddyPmmManager.Run PmmManager.Always ⟨s, []⟩ t ∧ ∃ b ∈ t.live,
      layout.count ∈ buddyFreeInspects 65 t.mgr b.start b.len := by
  obtain ⟨hnp, hlayout, F, hinv, hN⟩ := buddyPmmInit_inv hclear hinit
  have hcount := (pageInit_layout hlayout).1
  have hpos : 0 < 2 ^ k := Nat.two_pow_pos k
  have hend := regionOf_end hlayout (by omega)
  rw [← hend] at hmod
  obtain ⟨hmem, hdvd⟩ := mem_last_block hinv hN hk hmod hn
  rw [hend] at hmem hdvd
  obtain ⟨ys, zs, hF⟩ := List.append_of_mem hmem
  obtain ⟨t, hrun, hlive, htnp⟩ :=
    exists_run_to_block (by omega) ys zs F ⟨s, []⟩ hF .refl hinv
  refine ⟨t, hrun, _, hlive, ?_⟩
  apply mem_freeInspects_of_buddy hk (two_pow_dvd_of_le hdvd (Nat.le_succ k))
  -- the index is `npage - nbase`, which `npage` does not stop
  have hxor : (layout.count - 2 ^ k) ^^^ 2 ^ k = layout.count := by
    rcases xor_two_pow (two_pow_dvd_of_le hdvd (Nat.le_succ k)) with ⟨-, he⟩ | ⟨hd, he⟩
    · omega
    · have hlow := (Nat.dvd_add_right hd).mp (he ▸ hdvd)
      have hle := Nat.le_of_dvd hpos hlow
      rw [Nat.pow_succ] at hle
      omega
  have hbase : nbase = 524288 := rfl
  dsimp only at htnp
  rw [buddyOf, Nat.one_shiftLeft, hxor]
  exact if_neg (by omega)

/-- No call of `buddy_free_pages` looks behind `pages[]` in any run after `page_init`, if and only
if the last aligned block whose buddy begins where the region ends does not fit into the
region. -/
theorem buddy_in_bounds {s₀ : BuddyAreas} {fuel memBase memSize kernEnd : Nat}
    {layout : PageLayout} (hclear : MemoryClear s₀ layout)
    (hinit : buddyPmmInit fuel s₀ memBase memSize kernEnd = .ok (layout, s)) :
    (∀ t, buddyPmmManager.Run PmmManager.Always ⟨s, []⟩ t → ∀ b ∈ t.live, ∀ fuel,
        ∀ q ∈ buddyFreeInspects fuel t.mgr b.start b.len, q < layout.npage - nbase) ↔
      ∀ j, j + 1 < maxOrder → (layout.npage - nbase) % 2 ^ (j + 1) = 2 ^ j →
        (regionOf layout).len < 2 ^ j := by
  obtain ⟨hnp, hlayout, F, hinv, -⟩ := buddyPmmInit_inv hclear hinit
  have hcount := (pageInit_layout hlayout).1
  rw [show layout.npage - nbase = layout.count by omega]
  constructor
  · intro hall j hj hmod
    by_contra hn
    obtain ⟨t, hrun, b, hb, hq⟩ := exists_run_behind hclear hinit hj hmod (Nat.le_of_not_lt hn)
    exact Nat.lt_irrefl _ (hall t hrun b hb 65 _ hq)
  · intro hsmall t hrun b hb fuel'
    have hin : BuddiesInside (regionOf layout).start (regionOf layout).len layout.count :=
      buddiesInside_of (regionOf_end hlayout) hsmall
    have harray : InArray (regionOf layout).start (regionOf layout).len layout.count t := by
      apply PmmManager.Run.invariant _ hrun
      · exact ⟨by rw [hnp]; omega, F, hinv⟩
      · intro u v fuel op hu hlegal _ he
        cases op with
        | alloc k => exact hu.alloc he
        | free c => exact hu.free hin hlegal he
    exact harray.inspects hin hb

/-- A memory in which all is zero. -/
def zeroAreas : BuddyAreas where
  pages := fun _ => ⟨0, ⟨false, false⟩, 0⟩
  npage := 0
  links := ⟨id, id⟩
  nrFree := fun _ => 0

/-- `page_init` of a memory of `n` pages with a kernel of `0x11000` bytes behind `0xc0200000`: the
number of descriptors, the number of pages in the region, and the buddies that freeing a first
allocation of one page looks at. -/
def freeFirstPage (n : Nat) : Except Halt (Nat × Nat × List Nat) := do
  let r ← buddyPmmInit 10 zeroAreas 0x80000000 (n * 4096) 0xFFFFFFFFC0211000
  let t ← buddyPmmManager.execAll 10 ⟨r.2, []⟩ [.alloc 1]
  return (r.1.npage - nbase, (regionOf r.1).len,
    t.live.flatMap fun b => buddyFreeInspects 10 t.mgr b.start b.len)

/-- With 536 pages the region is page 535 alone, the second half of its pair. -/
theorem buddy_in_bounds_onePage :
    ∃ layout s, buddyPmmInit 10 zeroAreas 0x80000000 (536 * 4096) 0xFFFFFFFFC0211000 =
        .ok (layout, s) ∧
      ∀ t, buddyPmmManager.Run PmmManager.Always ⟨s, []⟩ t → ∀ b ∈ t.live, ∀ fuel,
        ∀ q ∈ buddyFreeInspects fuel t.mgr b.start b.len, q < layout.npage - nbase := by
  have hcheck : freeFirstPage 536 = .ok (536, 1, [534]) := by decide +kernel
  unfold freeFirstPage at hcheck
  obtain ⟨⟨layout, s⟩, hinit, hcheck⟩ := Halt.bind_eq_ok.mp hcheck
  obtain ⟨t, -, hcheck⟩ := Halt.bind_eq_ok.mp hcheck
  obtain ⟨hcount, hlen, -⟩ := Prod.mk.inj (Except.ok.inj hcheck) |>.imp id Prod.mk.inj
  refine ⟨layout, s, hinit, (buddy_in_bounds (fun _ _ _ => rfl) hinit).mpr fun j hj hmod => ?_⟩
  dsimp only at hcount hlen
  rw [hlen]
  rw [hcount] at hmod
  -- the last page of the memory ends a block of order three
  cases j with
  | zero => exact absurd hmod (by decide)
  | succ j => exact Nat.one_lt_two_pow (Nat.succ_ne_zero j)

/-- With 537 pages the last page is a block of its own, and its buddy would be page 537. -/
theorem buddy_behind_pages :
    ¬ ∀ (s₀ s : BuddyAreas) (fuel memBase memSize kernEnd : Nat) (layout : PageLayout),
      MemoryClear s₀ layout →
      buddyPmmInit fuel s₀ memBase memSize kernEnd = .ok (layout, s) →
      ∀ t, buddyPmmManager.Run PmmManager.Always ⟨s, []⟩ t → ∀ b ∈ t.live, ∀ fuel,
        ∀ q ∈ buddyFreeInspects fuel t.mgr b.start b.len, q < layout.npage - nbase := by
  intro hall
  have hcheck : freeFirstPage 537 = .ok (537, 2, [537]) := by decide +kernel
  unfold freeFirstPage at hcheck
  obtain ⟨⟨layout, s⟩, hinit, hcheck⟩ := Halt.bind_eq_ok.mp hcheck
  obtain ⟨t, hrun, hcheck⟩ := Halt.bind_eq_ok.mp hcheck
  obtain ⟨hcount, -, hinspects⟩ := Prod.mk.inj (Except.ok.inj hcheck) |>.imp id Prod.mk.inj
  have hmem : 537 ∈ t.live.flatMap fun b => buddyFreeInspects 10 t.mgr b.start b.len := by
    rw [hinspects]
    exact List.mem_cons_self
  obtain ⟨b, hb, hq⟩ := List.mem_flatMap.mp hmem
  have hlt := hall zeroAreas s 10 _ _ _ layout (fun _ _ _ => rfl) hinit t
    (buddyPmmManager.run_of_execAll hrun) b hb 10 537 hq
  rw [hcount] at hlt
  exact Nat.lt_irrefl _ hlt

end Ucore.Proofs.Mm
