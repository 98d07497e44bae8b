import Ucore.Mm.PageInit8

/-!
# `Ucore.Proofs.Mm.PageInit8`: which memory lab 8 can see

`page_init` compares a physical address with `KERNTOP`, which is a virtual one. So it cuts off
nothing, and hands out every page up to the end of the memory, also behind the window of the page
table (`pageInit8_window`).

## The window

`switch_kernel_memorylayout` maps the kernel text and what is behind it up to `KERNTOP`, and nothing
else. A run of pages that `page_init` hands to the manager is as it is asked (`HandedOk`) when each
page has a descriptor, lies behind the kernel and behind the descriptors, and is mapped to itself.

## The proof

The additions and subtractions of the source are ones of `uintptr_t` and `size_t`. The first lemmas
say when they do not wrap, and `pageInit8_handed` gives the call of `init_memmap` as a function of
the memory and the image. In the window every page is mapped (`handedOk_of_window`). Behind it the
last page that is handed out is not (`not_pageInitOk_of_behind`).

With the 128 megabytes of the emulator the memory ends with the window. With 256 it does not
(`pageInit8_256M`).
-/

set_option autoImplicit false

namespace Ucore.Proofs.Mm

open Ucore.Lib Ucore.Mm

variable {memBase memSize etext kernEnd : Nat}

/-! ### The page table -/

/-- The loop of `boot_map_segment` maps `n` pages in a row and leaves the others. -/
theorem bootMapLoop_apply (perm : PteFlags) (n : Nat) : ∀ (la pa : Nat) (pgdir : KernPgdir) (p : Nat),
    bootMapLoop perm n la pa pgdir p =
      if la / pgSize ≤ p ∧ p < la / pgSize + n then
        some (pteCreate (pa / pgSize + (p - la / pgSize)) perm)
      else pgdir p := by
  induction n with
  | zero => intro la pa pgdir p; rw [bootMapLoop, if_neg (by omega)]
  | succ n ih =>
      intro la pa pgdir p
      have hla : (la + pgSize) / pgSize = la / pgSize + 1 := Nat.add_div_right _ (by decide)
      have hpa : (pa + pgSize) / pgSize = pa / pgSize + 1 := Nat.add_div_right _ (by decide)
      rw [bootMapLoop, ih, hla, hpa]
      by_cases hp : p = la / pgSize
      · -- the page of this round
        rw [if_neg (by omega), if_pos (by omega), hp, Function.update_self, Nat.sub_self,
          Nat.add_zero]
      · rw [Function.update_of_ne hp]
        by_cases hin : la / pgSize + 1 ≤ p ∧ p < la / pgSize + 1 + n
        · rw [if_pos hin, if_pos (by omega), show pa / pgSize + 1 + (p - (la / pgSize + 1)) =
            pa / pgSize + (p - la / pgSize) by omega]
        · rw [if_neg hin, if_neg (by omega)]

/-- The page table maps the window behind the text to the memory, and nothing outside the window. -/
theorem switchKernelMemorylayout_spec (hbase : kernBase ≤ etext) (htop : etext ≤ kernTop) :
    ∃ pgdir, switchKernelMemorylayout etext = .ok pgdir ∧
      (∀ p, pageRoundUp etext / pgSize ≤ p → p < kernTop / pgSize →
        pgdir p = some (pteCreate (p - vaPaOffset / pgSize) (pteR ||| pteW))) ∧
      ∀ p, p < kernBase / pgSize ∨ kernTop / pgSize ≤ p → pgdir p = none := by
  obtain ⟨retext, hretext⟩ : ∃ r, r = pageRoundUp etext := ⟨_, rfl⟩
  have hround : kernBase ≤ retext ∧ retext ≤ kernTop ∧ retext % pgSize = 0 := by
    rw [hretext]
    unfold pageRoundUp uintptr roundDown
    unfold kernTop kernBase at *
    unfold pgSize
    omega
  obtain ⟨hlow, hhigh, halign⟩ := hround
  -- The two segments meet at `retext`: the text, and all behind it.
  have hbytes : pageRoundUp (sizeSub retext kernBase + kernBase % pgSize) / pgSize =
      retext / pgSize - kernBase / pgSize ∧
      pageRoundUp (sizeSub kernTop retext + retext % pgSize) / pgSize =
        kernTop / pgSize - retext / pgSize := by
    unfold pageRoundUp sizeSub uintptr roundDown
    unfold kernTop kernBase pgSize at *
    omega
  have hmod : kernBase % pgSize = (kernBase - vaPaOffset) % pgSize ∧
      retext % pgSize = (retext - vaPaOffset) % pgSize := by
    unfold vaPaOffset
    unfold kernTop kernBase pgSize at *
    omega
  unfold switchKernelMemorylayout
  dsimp only
  rw [← hretext]
  have hrun₁ : paddr kernBase = .ok (kernBase - vaPaOffset) := if_neg (Nat.lt_irrefl _)
  have hrun₂ : paddr retext = .ok (retext - vaPaOffset) := if_neg (Nat.not_lt.mpr hlow)
  rw [hrun₁, hrun₂]
  simp only [bind, Except.bind, bootMapSegment, if_neg (not_not.mpr hmod.1),
    if_neg (not_not.mpr hmod.2), hbytes.1, hbytes.2]
  -- A page of the second segment, and a page of neither.
  refine ⟨_, rfl, fun p hp hp' => ?_, fun p hp => ?_⟩
  · have hframe : roundDown (retext - vaPaOffset) pgSize / pgSize +
        (p - roundDown retext pgSize / pgSize) = p - vaPaOffset / pgSize := by
      unfold roundDown vaPaOffset
      unfold kernTop kernBase pgSize at *
      omega
    rw [bootMapLoop_apply, if_pos, hframe]
    · unfold roundDown
      unfold kernTop kernBase pgSize at *
      omega
  · rw [bootMapLoop_apply, if_neg, bootMapLoop_apply, if_neg]
    · unfold roundDown
      unfold kernTop kernBase pgSize at *
      omega
    · unfold roundDown
      unfold kernTop kernBase pgSize at *
      omega

/-! ### The pages that are handed out -/

/-- The difference of two `size_t` does not wrap when the second is the smaller. -/
theorem sizeSub_eq {a b : Nat} (h : b ≤ a) (ha : a < 2 ^ 64) : sizeSub a b = a - b := by
  unfold sizeSub uintptr
  omega

/-- A rounded address is at the start of a page. -/
theorem pageRoundUp_mod (a : Nat) : pageRoundUp a % pgSize = 0 := by
  unfold pageRoundUp roundDown pgSize
  omega

/-- `ROUNDUP` in front of the end of the address space. -/
theorem pageRoundUp_spec {a : Nat} (h : a + pgSize ≤ 2 ^ 64) :
    a ≤ pageRoundUp a ∧ pageRoundUp a < a + pgSize ∧ pageRoundUp a % pgSize = 0 := by
  unfold pageRoundUp uintptr roundDown
  unfold pgSize at *
  omega

/-- Where `pages[]` begins. -/
theorem pages_spec (hbase : kernBase ≤ kernEnd) (htop : kernEnd ≤ kernTop) :
    kernEnd ≤ pageRoundUp kernEnd ∧ pageRoundUp kernEnd ≤ kernTop ∧
      pageRoundUp kernEnd % pgSize = 0 := by
  obtain ⟨h₁, h₂, h₃⟩ := pageRoundUp_spec (a := kernEnd)
    (by unfold kernTop kernBase at htop; unfold pgSize; omega)
  refine ⟨h₁, ?_, h₃⟩
  unfold kernTop kernBase at *
  unfold pgSize at *
  omega

/-- `npage` is at most the number of pages below the end of the memory. -/
theorem npageOf_le (hwrap : memBase + memSize < 2 ^ 64) :
    npageOf memBase memSize ≤ (memBase + memSize) / pgSize := by
  have hsum : uintptr (memBase + memSize) = memBase + memSize := Nat.mod_eq_of_lt hwrap
  unfold npageOf
  dsimp only
  rw [hsum]
  split
  · exact Nat.div_le_div_right (by omega)
  · exact Nat.le_refl _

/-- The number of pages, on memory whose descriptors have a place in the address space: the cut at
`KERNTOP` is far behind it. -/
theorem npageOf_eq (hbase : kernBase ≤ kernEnd) (htop : kernEnd ≤ kernTop)
    (hwrap : memBase + memSize < 2 ^ 64)
    (hend : pageRoundUp kernEnd + sizeofPage8 * (npageOf memBase memSize - nbase) ≤ 2 ^ 64) :
    npageOf memBase memSize = (memBase + memSize) / pgSize := by
  have hpages := (pages_spec hbase htop).1
  have hsum : uintptr (memBase + memSize) = memBase + memSize := Nat.mod_eq_of_lt hwrap
  unfold npageOf at *
  dsimp only at *
  rw [hsum] at hend ⊢
  by_cases hcut : memBase + memSize > kernTop
  · rw [if_pos hcut] at hend
    unfold nbase sizeofPage8 at hend
    unfold kernTop kernBase pgSize at *
    omega
  · rw [if_neg hcut]

/-- The call of `init_memmap`, on memory that does not wrap around. -/
theorem pageInit8_handed {r : PageInit8} {h : Handed} (hbase : kernBase ≤ kernEnd)
    (htop : kernEnd ≤ kernTop) (hwrap : memBase + memSize < 2 ^ 64)
    (hpages : nbase ≤ npageOf memBase memSize) (hrun : pageInit8 memBase memSize kernEnd = .ok r)
    (hh : r.handed = some h) :
    pagesEnd memBase memSize kernEnd < 2 ^ 64 ∧ r.pages = pageRoundUp kernEnd ∧
      r.count = (memBase + memSize) / pgSize - nbase ∧
      h.memBegin = pageRoundUp (pagesEnd memBase memSize kernEnd - vaPaOffset) ∧
      h.memEnd = roundDown (memBase + memSize) pgSize ∧ h.memBegin < h.memEnd ∧
      h.base = h.memBegin / pgSize - nbase ∧ h.n = (h.memEnd - h.memBegin) / pgSize := by
  obtain ⟨hlow, hhigh, halign⟩ := pages_spec hbase htop
  have hsum : uintptr (memBase + memSize) = memBase + memSize := Nat.mod_eq_of_lt hwrap
  have hle := npageOf_le hwrap
  have hcount : sizeSub (npageOf memBase memSize) nbase = npageOf memBase memSize - nbase :=
    sizeSub_eq hpages (by unfold pgSize at hle; omega)
  unfold pageInit8 at hrun
  dsimp only at hrun
  rw [hcount] at hrun
  by_cases hzero : memSize = 0
  · rw [if_pos hzero] at hrun
    cases hrun
  rw [if_neg hzero] at hrun
  by_cases hfault : 0 < npageOf memBase memSize - nbase ∧ (pageRoundUp kernEnd < kernMapped ∨
      2 ^ 64 < pageRoundUp kernEnd + sizeofPage8 * (npageOf memBase memSize - nbase))
  · rw [if_pos hfault] at hrun
    cases hrun
  rw [if_neg hfault] at hrun
  -- the descriptors fit, so the cut at `KERNTOP` has done nothing
  have hfit : pageRoundUp kernEnd + sizeofPage8 * (npageOf memBase memSize - nbase) ≤ 2 ^ 64 := by
    unfold kernTop kernBase sizeofPage8 at *
    unfold kernMapped at hfault
    omega
  have hnpage := npageOf_eq hbase htop hwrap hfit
  rw [hnpage, hsum] at hrun
  rw [hnpage] at hfit hpages
  obtain ⟨stop, hstop⟩ : ∃ x, x = pagesEnd memBase memSize kernEnd := ⟨_, rfl⟩
  have hstop' : pageRoundUp kernEnd + sizeofPage8 * ((memBase + memSize) / pgSize - nbase) = stop :=
    hstop.symm
  rw [hstop'] at hrun hfit
  have hlowStop : kernBase ≤ stop := by
    rw [hstop]
    exact hbase.trans (hlow.trans (Nat.le_add_right _ _))
  by_cases hlast : stop = 2 ^ 64
  · -- the end of `pages[]` is address zero, and `PADDR` panics
    have hzero : uintptr stop = 0 := by
      rw [hlast]
      rfl
    rw [hzero, paddr, if_pos (by decide)] at hrun
    cases hrun
  have hlt : stop < 2 ^ 64 := Nat.lt_of_le_of_ne hfit hlast
  have hself : uintptr stop = stop := Nat.mod_eq_of_lt hlt
  obtain ⟨freemem, hfreemem⟩ : ∃ x, x = stop - vaPaOffset := ⟨_, rfl⟩
  have hpaddr : paddr stop = .ok freemem := by
    rw [paddr, if_neg (Nat.not_lt.mpr hlowStop), hfreemem]
  rw [hself, hpaddr] at hrun
  rw [← hstop, ← hfreemem]
  simp only [bind, Except.bind] at hrun
  have hfree : nbase * pgSize ≤ freemem ∧ freemem + pgSize ≤ 2 ^ 64 := by
    unfold kernBase at hlowStop
    unfold nbase pgSize vaPaOffset at *
    omega
  obtain ⟨h₁, h₂, h₃⟩ := pageRoundUp_spec hfree.2
  by_cases hsome : freemem < roundDown (memBase + memSize) pgSize
  · rw [if_pos hsome] at hrun
    by_cases hpanic : (memBase + memSize) / pgSize ≤ pageRoundUp freemem / pgSize
    · rw [if_pos hpanic] at hrun
      cases hrun
    · rw [if_neg hpanic] at hrun
      have hr := Except.ok.inj hrun
      subst hr
      have hhanded := Option.some.inj hh
      subst hhanded
      have hbelow : pageRoundUp freemem < roundDown (memBase + memSize) pgSize := by
        unfold roundDown
        unfold pgSize at *
        omega
      have hbase' : nbase ≤ pageRoundUp freemem / pgSize :=
        (Nat.le_div_iff_mul_le (by decide)).mpr (hfree.1.trans h₁)
      have hend : roundDown (memBase + memSize) pgSize < 2 ^ 64 :=
        Nat.lt_of_le_of_lt (Nat.sub_le _ _) hwrap
      have hbegin : pageRoundUp freemem / pgSize < 2 ^ 64 :=
        Nat.lt_of_le_of_lt (Nat.div_le_self _ _) (hbelow.trans hend)
      exact ⟨hlt, rfl, rfl, rfl, rfl, hbelow, sizeSub_eq hbase' hbegin,
        congrArg (· / pgSize) (sizeSub_eq hbelow.le hend)⟩
  · rw [if_neg hsome] at hrun
    have hr := Except.ok.inj hrun
    subst hr
    exact absurd hh (by simp)

/-- There is a call when a page is left behind `pages[]`. -/
theorem pageInit8_hands (hbase : kernBase ≤ kernEnd) (htop : kernEnd ≤ kernTop)
    (hzero : memSize ≠ 0) (hwrap : memBase + memSize < 2 ^ 64)
    (hpages : nbase ≤ (memBase + memSize) / pgSize)
    (hlt : pagesEnd memBase memSize kernEnd < 2 ^ 64)
    (hleft : pageRoundUp (pagesEnd memBase memSize kernEnd - vaPaOffset) <
      roundDown (memBase + memSize) pgSize) :
    npageOf memBase memSize = (memBase + memSize) / pgSize ∧
      ∃ r h, pageInit8 memBase memSize kernEnd = .ok r ∧ r.handed = some h := by
  obtain ⟨hlow, hhigh, halign⟩ := pages_spec hbase htop
  have hsum : uintptr (memBase + memSize) = memBase + memSize := Nat.mod_eq_of_lt hwrap
  have hnpage : npageOf memBase memSize = (memBase + memSize) / pgSize := by
    refine npageOf_eq hbase htop hwrap (Nat.le_trans ?_ hlt.le)
    have hle := npageOf_le hwrap
    unfold pagesEnd sizeofPage8
    omega
  have hcount : sizeSub ((memBase + memSize) / pgSize) nbase =
      (memBase + memSize) / pgSize - nbase :=
    sizeSub_eq hpages (Nat.lt_of_le_of_lt (Nat.div_le_self _ _) hwrap)
  -- The end of the array of pages and its physical address get names, for the arithmetic.
  obtain ⟨stop, hstop⟩ : ∃ x, x = pagesEnd memBase memSize kernEnd := ⟨_, rfl⟩
  have hstop' : pageRoundUp kernEnd + sizeofPage8 * ((memBase + memSize) / pgSize - nbase) = stop :=
    hstop.symm
  rw [← hstop] at hlt hleft
  have hlowStop : kernBase ≤ stop := by
    rw [hstop]
    exact hbase.trans (hlow.trans (Nat.le_add_right _ _))
  have hself : uintptr stop = stop := Nat.mod_eq_of_lt hlt
  obtain ⟨freemem, hfreemem⟩ : ∃ x, x = stop - vaPaOffset := ⟨_, rfl⟩
  have hpaddr : paddr stop = .ok freemem := by
    rw [paddr, if_neg (Nat.not_lt.mpr hlowStop), hfreemem]
  rw [← hfreemem] at hleft
  have hround : freemem ≤ pageRoundUp freemem ∧ pageRoundUp freemem % pgSize = 0 := by
    obtain ⟨h₁, -, h₃⟩ := pageRoundUp_spec (a := freemem)
      (by unfold vaPaOffset at hfreemem; unfold pgSize; omega)
    exact ⟨h₁, h₃⟩
  refine ⟨hnpage, ?_⟩
  -- Then the function is followed through its tests, none of which ends it.
  unfold pageInit8
  dsimp only
  rw [if_neg hzero, hnpage, hsum, hcount, hstop', if_neg, hself, hpaddr]
  · simp only [bind, Except.bind]
    rw [if_pos (Nat.lt_of_le_of_lt hround.1 hleft), if_neg]
    · exact ⟨_, _, rfl, rfl⟩
    · have hmod := hround.2
      unfold roundDown at hleft
      unfold pgSize at *
      omega
  · have hmapped : kernMapped ≤ pageRoundUp kernEnd := by
      unfold kernBase at hbase
      unfold kernMapped
      omega
    omega

/-! ### The window -/

/-- In the window every page that is handed out is as it is asked. -/
theorem handedOk_of_window {r : PageInit8} {h : Handed} {pgdir : KernPgdir} (hbase : kernBase ≤ etext)
    (htext : etext ≤ kernEnd) (htop : kernEnd ≤ kernTop)
    (hpgdir : ∀ p, pageRoundUp etext / pgSize ≤ p → p < kernTop / pgSize →
      pgdir p = some (pteCreate (p - vaPaOffset / pgSize) (pteR ||| pteW)))
    (hwrap : memBase + memSize < 2 ^ 64) (hpages : nbase ≤ npageOf memBase memSize)
    (hwindow : roundDown (memBase + memSize) pgSize ≤ kernTop - vaPaOffset)
    (hrun : pageInit8 memBase memSize kernEnd = .ok r) (hh : r.handed = some h) :
    HandedOk kernEnd pgdir r h := by
  obtain ⟨hlt, hr, hcount, hbegin, hend, hbelow, hb, hn⟩ :=
    pageInit8_handed (hbase.trans htext) htop hwrap hpages hrun hh
  obtain ⟨hlow, hhigh, halign⟩ := pages_spec (hbase.trans htext) htop
  have hpagesEnd : r.pages + sizeofPage8 * r.count = pagesEnd memBase memSize kernEnd := by
    rw [hr, hcount]
    rfl
  have hstop : pageRoundUp kernEnd ≤ pagesEnd memBase memSize kernEnd := Nat.le_add_right _ _
  -- `freemem` is the physical address behind the array of pages. It is named so that the arithmetic
  -- below stays about numbers.
  obtain ⟨freemem, hfreemem⟩ : ∃ x, x = pagesEnd memBase memSize kernEnd - vaPaOffset := ⟨_, rfl⟩
  rw [← hfreemem] at hbegin
  have hfree : pagesEnd memBase memSize kernEnd = freemem + vaPaOffset ∧ nbase * pgSize ≤ freemem ∧
      freemem + pgSize ≤ 2 ^ 64 := by
    unfold nbase pgSize
    unfold vaPaOffset at *
    unfold kernBase at *
    omega
  obtain ⟨hround, -, hmod⟩ := pageRoundUp_spec hfree.2.2
  rw [← hbegin] at hround hmod
  have hnbase : nbase ≤ h.memBegin / pgSize :=
    (Nat.le_div_iff_mul_le (by decide)).mpr (hfree.2.1.trans hround)
  have hendMod : h.memEnd % pgSize = 0 := by
    rw [hend]
    unfold roundDown pgSize
    omega
  have hendDiv : h.memEnd / pgSize = (memBase + memSize) / pgSize := by
    rw [hend]
    unfold roundDown pgSize
    omega
  rw [← hend] at hwindow
  -- The number of the pages, their range, and for each page what is asked of it.
  refine ⟨?_, ⟨hbelow.le, hnbase⟩, fun i hi hi' => ?_⟩
  · rw [hn]
    unfold pgSize at *
    omega
  · -- the physical address of the page
    obtain ⟨pa, hpa⟩ : ∃ pa, pa = (i + nbase) * pgSize := ⟨_, rfl⟩
    have hrange : h.memBegin ≤ pa ∧ pa + pgSize ≤ h.memEnd := by
      unfold pgSize at *
      omega
    have hkva : page2kva i = pa + vaPaOffset := by
      unfold page2kva uintptr
      rw [← hpa]
      unfold kernTop kernBase at hwindow
      unfold vaPaOffset at *
      unfold pgSize at hrange
      omega
    have hkvaDiv : page2kva i / pgSize = i + nbase + vaPaOffset / pgSize := by
      rw [hkva, hpa]
      unfold vaPaOffset pgSize
      omega
    -- Its descriptor exists; its address is behind the kernel and behind the array; it is mapped.
    refine ⟨?_, ?_, ?_, ?_⟩
    · rw [hcount, ← hendDiv]
      unfold pgSize at *
      omega
    · rw [hkva]
      omega
    · rw [hpagesEnd, hkva]
      omega
    · rw [hpgdir, hkvaDiv, Nat.add_sub_cancel]
      · -- the text ends in front of the page
        have hle : pageRoundUp etext ≤ pageRoundUp kernEnd := by
          unfold pageRoundUp uintptr roundDown
          unfold kernTop kernBase at htop
          unfold pgSize
          omega
        exact Nat.div_le_div_right (by rw [hkva]; omega)
      · rw [hkva]
        unfold kernTop kernBase at *
        unfold vaPaOffset pgSize at *
        omega

/-- Behind the window the last page that is handed out is not mapped. -/
theorem not_pageInitOk_of_behind (hbase : kernBase ≤ etext) (htext : etext ≤ kernEnd)
    (htop : kernEnd ≤ kernTop) (hzero : memSize ≠ 0) (hwrap : memBase + memSize < 2 ^ 64)
    (hpages : nbase ≤ (memBase + memSize) / pgSize)
    (hbehind : kernTop - vaPaOffset < roundDown (memBase + memSize) pgSize)
    (hleft : pageRoundUp (pagesEnd memBase memSize kernEnd - vaPaOffset) <
      roundDown (memBase + memSize) pgSize)
    (hlt : pagesEnd memBase memSize kernEnd < 2 ^ 64) :
    ¬ PageInitOk memBase memSize etext kernEnd := by
  rintro ⟨-, pgdir, hswitch, hall⟩
  obtain ⟨hnpage, r, h, hrun, hh⟩ :=
    pageInit8_hands (hbase.trans htext) htop hzero hwrap hpages hlt hleft
  have hok := hall r h hrun hh
  obtain ⟨-, hr, hcount, hbegin, hend, hbelow, hb, hn⟩ :=
    pageInit8_handed (hbase.trans htext) htop hwrap (hnpage ▸ hpages) hrun hh
  obtain ⟨pgdir', hswitch', -, hnone⟩ :=
    switchKernelMemorylayout_spec hbase (htext.trans htop)
  rw [hswitch'] at hswitch
  obtain rfl := Except.ok.inj hswitch
  obtain ⟨hlow, -, -⟩ := pages_spec (hbase.trans htext) htop
  have hpos := hok.pos
  have hnbase := hok.noWrap.2
  obtain ⟨-, -, -, hsome⟩ := hok.inside (h.base + h.n - 1) (by omega) (by omega)
  -- the descriptors fit behind the kernel, so the memory is not larger than this
  have hsize : (memBase + memSize) / pgSize - nbase < 0x1000000 := by
    unfold pagesEnd sizeofPage8 at hlt
    unfold kernBase at hbase
    omega
  have hmod : h.memBegin % pgSize = 0 := by
    rw [hbegin]
    exact pageRoundUp_mod _
  have hpage : h.base + h.n - 1 + nbase = (memBase + memSize) / pgSize - 1 := by
    unfold roundDown at hend
    unfold pgSize at *
    omega
  have hout : page2kva (h.base + h.n - 1) / pgSize < kernBase / pgSize ∨
      kernTop / pgSize ≤ page2kva (h.base + h.n - 1) / pgSize := by
    unfold page2kva
    rw [hpage]
    unfold roundDown at hbehind
    unfold uintptr
    unfold kernTop kernBase nbase vaPaOffset pgSize at *
    omega
  rw [hnone _ hout] at hsome
  cases hsome

/-- For every memory, `page_init` does what is asked of it if and only if what it leaves behind
`pages[]` lies in the window. The image of the kernel is in the window, as it is linked. -/
theorem pageInit8_window (hbase : kernBase ≤ etext) (htext : etext ≤ kernEnd)
    (htop : kernEnd ≤ kernTop) :
    PageInitOk memBase memSize etext kernEnd ↔ InWindow memBase memSize kernEnd := by
  unfold InWindow
  by_cases hzero : memSize = 0
  · -- `page_init` panics
    refine iff_of_true ⟨fun hne => absurd hzero hne, ?_⟩ (Or.inl hzero)
    obtain ⟨pgdir, hswitch, -⟩ := switchKernelMemorylayout_spec hbase (htext.trans htop)
    refine ⟨pgdir, hswitch, fun r h hrun _ => ?_⟩
    unfold pageInit8 at hrun
    rw [if_pos hzero] at hrun
    cases hrun
  constructor
  · intro hok
    obtain ⟨hwrap, hpages⟩ := hok.1 hzero
    have hpages' := hpages.trans (npageOf_le hwrap)
    refine Or.inr ⟨hwrap, hpages', ?_⟩
    by_contra hnot
    simp only [not_or, Nat.not_le] at hnot
    exact not_pageInitOk_of_behind hbase htext htop hzero hwrap hpages' hnot.1 hnot.2.1 hnot.2.2 hok
  · rintro (hz | ⟨hwrap, hpages, hcases⟩)
    · exact absurd hz hzero
    obtain ⟨pgdir, hswitch, hpgdir, -⟩ := switchKernelMemorylayout_spec hbase (htext.trans htop)
    have hpages' : nbase ≤ npageOf memBase memSize := by
      have hsum : uintptr (memBase + memSize) = memBase + memSize := Nat.mod_eq_of_lt hwrap
      unfold npageOf
      dsimp only
      rw [hsum]
      split
      · decide
      · exact hpages
    refine ⟨fun _ => ⟨hwrap, hpages'⟩, pgdir, hswitch, fun r h hrun hh => ?_⟩
    rcases hcases with hwindow | hnone | hlarge
    · exact handedOk_of_window hbase htext htop hpgdir hwrap hpages' hwindow hrun hh
    · -- no page is left
      obtain ⟨-, -, -, hbegin, hend, hbelow, -⟩ :=
        pageInit8_handed (hbase.trans htext) htop hwrap hpages' hrun hh
      rw [hbegin, hend] at hbelow
      exact absurd hbelow (Nat.not_lt.mpr hnone)
    · -- there is no call
      have hlt := (pageInit8_handed (hbase.trans htext) htop hwrap hpages' hrun hh).1
      exact absurd hlt (Nat.not_lt.mpr hlarge)

/-- The memory of the emulator's machine, 128 megabytes, ends with the window. `page_init` hands out
one run of pages, to the last one, and each is as it should be. -/
theorem pageInit8_window_128M :
    ∃ pgdir r h, switchKernelMemorylayout 0xFFFFFFFFC0210000 = .ok pgdir ∧
      pageInit8 0x80000000 0x8000000 0xFFFFFFFFC0400000 = .ok r ∧ r.handed = some h ∧
      h.memEnd = 0x88000000 ∧ h.base + h.n = 0x8000 ∧
      HandedOk 0xFFFFFFFFC0400000 pgdir r h := by
  have hwindow : InWindow 0x80000000 0x8000000 0xFFFFFFFFC0400000 := by
    refine Or.inr ⟨by decide, by decide, Or.inl (by decide)⟩
  obtain ⟨-, pgdir, hswitch, hok⟩ := (pageInit8_window
    (show kernBase ≤ 0xFFFFFFFFC0210000 by decide) (by decide) (by decide)).mpr hwindow
  have hrun : pageInit8 0x80000000 0x8000000 0xFFFFFFFFC0400000 =
      .ok ⟨0xFFFFFFFFC0400000, 0x8000, some ⟨0x80600000, 0x88000000, 0x600, 0x7a00⟩⟩ := by
    decide +kernel
  exact ⟨pgdir, _, _, hswitch, hrun, rfl, rfl, rfl, hok _ _ hrun rfl⟩

/-- Of 256 megabytes `page_init` hands out pages that the kernel cannot see. -/
theorem pageInit8_256M : ¬ PageInitOk 0x80000000 0x10000000 0xFFFFFFFFC0210000 0xFFFFFFFFC0400000 :=
  not_pageInitOk_of_behind (by decide) (by decide) (by decide) (by decide) (by decide) (by decide)
    (by decide) (by decide) (by decide)

end Ucore.Proofs.Mm
