import Mathlib
import Ucore.Proofs.Mm.SlobPages

/-!
# `Ucore.Proofs.Mm.Kmalloc`: the blocks of `kmalloc`

The allocator cuts its pages into the small blocks of the callers and the records of the big ones. A
record is a link of the list of the big blocks, and it names a page run of its own (`KmallocOk`). So
a call of `kmalloc` and one of `kfree` keep every other block.

## The invariant

`KmallocOk` adds three things to the tiling of the pages by `slob_alloc` (`SlobOk`): the records
lead through the big blocks in the order of the list (`BigSeg`), the runs of the big blocks lie
apart from the pages that are cut, and each live block is a small one, with its header, or a big
one. While a call runs it has blocks `pend` in its hands that no caller has and that are in no list.

## Sizes

`kmalloc` serves most sizes right (`SizeOk`). In front of a page it takes some sizes to fit that do
not: from 4064 to 4079 bytes the assertion of `slob_alloc` fails (`kmalloc_assert`). And
`find_order` halves a size and rounds down, so that a size just behind a power of two of pages gets
too few of them (`le_pages_iff`).

## Main results

* `KmallocOk.malloc`, `KmallocOk.kfree`: the calls return, and keep the invariant. `Returned` is
  exactly what `kfree` gives back: the block with its header, or the page run and its record.
* `KmallocOk.user_write`: what a caller writes into its block is no header.
* `kmalloc_sound`: in every state of every run whose sizes are served right, the live blocks are
  disjoint and have room for their sizes; and for the next request, being served right is necessary
  as well.
-/

set_option autoImplicit false

namespace Ucore.Proofs.Mm

open Ucore.Lib Ucore.Mm

variable {arena : Nat} {k k' : Kmem} {free used : List Span} {pages : List Nat}
  {pa : PageAlloc arena} {size fuel fuel' : Nat}

/-! ### The big blocks -/

/-- A big block: its record, and what the caller has. -/
structure Big where
  bb : Nat
  order : Nat
  alloc : Alloc

/-- The units of the record. -/
def Big.record (g : Big) : Span := ⟨g.bb, 2⟩

/-- The run of the pages. -/
def Big.run (g : Big) : Nat × Nat := (g.alloc.ptr, 2 ^ g.order)

/-- The records lead from `p` through the big blocks to `q`. -/
def BigSeg (k : Kmem) : Nat → List Big → Nat → Prop
  | p, [], q => p = q
  | p, g :: gs, q => p = g.bb ∧ p ≠ 0 ∧ k.order p = g.order ∧ k.pages p = g.alloc.ptr ∧
      BigSeg k (k.bigNext p) gs q

variable {big gs : List Big} {g : Big} {small live : List Alloc}

/-- A path through the list of big blocks, cut at one of them. -/
theorem bigSeg_append : ∀ {gs : List Big} {p q : Nat} {g : Big} {hs : List Big},
    BigSeg k p (gs ++ g :: hs) q ↔ BigSeg k p gs g.bb ∧ BigSeg k g.bb (g :: hs) q := by
  intro gs
  induction gs with
  | nil =>
      intro p q g hs
      constructor
      · intro h
        obtain rfl : p = g.bb := h.1
        exact ⟨rfl, h⟩
      · rintro ⟨rfl, h⟩
        exact h
  | cons x gs ih =>
      intro p q g hs
      simp only [List.cons_append, BigSeg, ih]
      tauto

/-- The records are kept with their words. -/
theorem BigSeg.keeps (hk : Keeps (gs.map Big.record) k k') : ∀ {p q : Nat}, BigSeg k p gs q →
    BigSeg k' p gs q := by
  induction gs with
  | nil => exact fun h => h
  | cons g gs ih =>
      rintro p q ⟨rfl, hp, horder, hpages, hrest⟩
      have hwords := hk g.record (by simp)
      have hfst := hwords g.bb (by simp only [Big.record, Span.mem_iff]; omega)
      have hsnd := hwords (g.bb + 1) (by simp only [Big.record, Span.mem_iff]; omega)
      have hnext : k'.bigNext g.bb = k.bigNext g.bb := hsnd.1
      refine ⟨rfl, hp, hfst.1.trans horder, hfst.2.trans hpages, ?_⟩
      rw [hnext]
      exact ih (fun s hs => hk s (List.mem_cons_of_mem _ hs)) hrest

/-- The block in front of a place of the list of big blocks. -/
def lastBb (last : Option Nat) : List Big → Option Nat
  | [] => last
  | g :: gs => lastBb (some g.bb) gs

/-- The last of the big blocks. -/
theorem lastBb_concat : ∀ (gs : List Big) (g : Big) (last : Option Nat),
    lastBb last (gs ++ [g]) = some g.bb := by
  intro gs
  induction gs with
  | nil => intro g last; rfl
  | cons x gs ih => intro g last; exact ih g (some x.bb)

/-- The loop of `kfree` finds the record of the pages. -/
theorem findBig_spec {hs : List Big} {block : Nat} (hg : g.alloc.ptr = block) :
    ∀ {gs : List Big} {last : Option Nat} {p : Nat}, BigSeg k p (gs ++ g :: hs) 0 →
    (∀ x ∈ gs, x.alloc.ptr ≠ block) → ∀ fuel, gs.length < fuel →
    findBig k block fuel last p = .ok (some (lastBb last gs, g.bb)) := by
  intro gs
  induction gs with
  | nil =>
      rintro last p ⟨rfl, hp, -, hpages, -⟩ - fuel hfuel
      obtain ⟨fuel, rfl⟩ : ∃ m, fuel = m + 1 := ⟨fuel - 1, by simp at hfuel; omega⟩
      unfold findBig
      rw [if_neg hp, if_pos (hpages.trans hg)]
      rfl
  | cons x gs ih =>
      rintro last p ⟨rfl, hp, -, hpages, hrest⟩ hne fuel hfuel
      obtain ⟨fuel, rfl⟩ : ∃ m, fuel = m + 1 := ⟨fuel - 1, by simp at hfuel; omega⟩
      unfold findBig
      rw [if_neg hp, if_neg (by rw [hpages]; exact hne x List.mem_cons_self)]
      exact ih hrest (fun y hy => hne y (List.mem_cons_of_mem x hy)) fuel (by simpa using hfuel)

/-- The loop finds nothing when no big block has the pages. -/
theorem findBig_none {block : Nat} : ∀ {gs : List Big} {last : Option Nat} {p : Nat},
    BigSeg k p gs 0 → (∀ x ∈ gs, x.alloc.ptr ≠ block) → ∀ fuel, gs.length < fuel →
    findBig k block fuel last p = .ok none := by
  intro gs
  induction gs with
  | nil =>
      rintro last p rfl - fuel hfuel
      obtain ⟨fuel, rfl⟩ : ∃ m, fuel = m + 1 := ⟨fuel - 1, by simp at hfuel; omega⟩
      rfl
  | cons x gs ih =>
      rintro last p ⟨rfl, hp, -, hpages, hrest⟩ hne fuel hfuel
      obtain ⟨fuel, rfl⟩ : ∃ m, fuel = m + 1 := ⟨fuel - 1, by simp at hfuel; omega⟩
      unfold findBig
      rw [if_neg hp, if_neg (by rw [hpages]; exact hne x List.mem_cons_self)]
      exact ih hrest (fun y hy => hne y (List.mem_cons_of_mem x hy)) fuel (by simpa using hfuel)

/-- The live blocks and the records, and the blocks `pend` that a call has in its hands. -/
structure KmallocOk (arena : Nat) (k : Kmem) (live : List Alloc) (free : List Span)
    (pages : List Nat) (small : List Alloc) (big : List Big) (pend : List Span) : Prop where
  slob : SlobOk arena k free (pend ++ (small.map Alloc.span ++ big.map Big.record)) pages
  chain : BigSeg k k.bigblocks big 0
  runs : k.runs.Perm (pages.map (fun p => (p, 1)) ++ big.map Big.run)
  apart : (k.runs.map pageRun).Pairwise Span.Disjoint
  aligned : ∀ r ∈ k.runs, 0 < r.1 ∧ r.1 % PAGE_UNITS = 0
  away : ∀ r ∈ k.runs, (pageRun r).stop < arena ∨ arena + 1 < r.1
  smallOk : ∀ a ∈ small, a.ptr = a.span.start + 1 ∧ k.units a.span.start = a.span.len ∧
    0 < a.size ∧ a.size + 16 ≤ 16 * a.span.len
  bigOk : ∀ g ∈ big, g.alloc.span = pageRun g.run ∧ g.alloc.size ≤ 16 * g.alloc.span.len
  live : live.Perm (small ++ big.map Big.alloc)

variable {pend : List Span} {free' : List Span} {pages' : List Nat}

/-- The order of the live blocks does not matter. -/
theorem SlobOk.perm {used' : List Span} (h : SlobOk arena k free used pages)
    (hperm : used.Perm used') : SlobOk arena k free used' pages := by
  refine ⟨h.list, h.static, ?_, h.apart, h.away, h.pos, ?_, ?_⟩
  · intro p
    rw [← h.cells p, cover_append, cover_append, cover_perm hperm]
  · intro s hs
    exact h.len s (hperm.mem_iff.mpr hs)
  · rw [← h.count, total_perm hperm]

/-- Each page of small blocks is a run of one page. -/
theorem KmallocOk.page_run (h : KmallocOk arena k live free pages small big pend) {p : Nat}
    (hp : p ∈ pages) : (p, 1) ∈ k.runs :=
  h.runs.mem_iff.mpr (List.mem_append_left _ (List.mem_map_of_mem hp))

/-- The blocks of the callers and the records are kept. -/
theorem KmallocOk.keeps_rest (h : KmallocOk arena k live free pages small big pend)
    (hk : Keeps (small.map Alloc.span ++ big.map Big.record) k k') :
    (∀ p q, BigSeg k p big q → BigSeg k' p big q) ∧
      ∀ a ∈ small, a.ptr = a.span.start + 1 ∧ k'.units a.span.start = a.span.len ∧
        0 < a.size ∧ a.size + 16 ≤ 16 * a.span.len := by
  constructor
  · intro p q hseg
    exact hseg.keeps fun s hs => hk s (List.mem_append_right _ hs)
  · intro a ha
    obtain ⟨hptr, hunits, hpos, hsize⟩ := h.smallOk a ha
    refine ⟨hptr, ?_, hpos, hsize⟩
    have hwords := hk a.span (List.mem_append_left _ (List.mem_map_of_mem ha)) a.span.start
      (by simp only [Span.mem_iff]; omega)
    exact hwords.1.trans hunits

/-- `slob_alloc` has given a block. -/
theorem KmallocOk.gave {m n : Nat} (h : KmallocOk arena k live free pages small big [])
    (hg : Gave arena pa k k' (small.map Alloc.span ++ big.map Big.record) pages m n free' pages') :
    KmallocOk arena k' live free' pages' small big [⟨m, n⟩] := by
  obtain ⟨hchain, hsmall⟩ := h.keeps_rest hg.keeps
  have hseg : BigSeg k' k'.bigblocks big 0 := by
    rw [hg.bigblocks]
    exact hchain _ _ h.chain
  rcases hg.grow with ⟨rfl, hruns⟩ | ⟨p, hp, rfl, hruns⟩
  · refine ⟨hg.ok, hseg, ?_, ?_, ?_, ?_, hsmall, h.bigOk, h.live⟩ <;> rw [hruns]
    · exact h.runs
    · exact h.apart
    · exact h.aligned
    · exact h.away
  · refine ⟨hg.ok, hseg, ?_, ?_, ?_, ?_, hsmall, h.bigOk, h.live⟩ <;> rw [hruns]
    · exact h.runs.cons (p, 1)
    · refine List.pairwise_cons.mpr ⟨?_, h.apart⟩
      intro t ht
      obtain ⟨r, hr, rfl⟩ := List.mem_map.mp ht
      exact pa.apart hp r hr
    · intro r hr
      rcases List.mem_cons.mp hr with rfl | hr
      · exact pa.pos hp
      · exact h.aligned r hr
    · intro r hr
      rcases List.mem_cons.mp hr with rfl | hr
      · exact pa.away hp
      · exact h.away r hr

/-- `slob_free` of a block in the hands of the call. -/
theorem KmallocOk.release {b n : Nat}
    (h : KmallocOk arena k live free pages small big (⟨b, n⟩ :: pend)) (size : Nat)
    (hn : n = if size = 0 then k.units b else SLOB_UNITS size) :
    ∃ F k' free', (∀ fuel, F ≤ fuel → slobFree fuel k b size = .ok k') ∧
      KmallocOk arena k' live free' pages small big pend ∧ k'.runs = k.runs ∧
      ∀ p, cover free' p = cover free p + cover [⟨b, n⟩] p := by
  have hslob : SlobOk arena k free
      (⟨b, n⟩ :: (pend ++ (small.map Alloc.span ++ big.map Big.record))) pages := h.slob
  obtain ⟨F, k', free', hrun, hok, hbig, hruns, hcover, hkeeps⟩ := hslob.release size hn
  obtain ⟨hchain, hsmall⟩ := h.keeps_rest fun s hs =>
    hkeeps s (List.mem_append_right pend hs)
  refine ⟨F, k', free', hrun, ⟨hok, ?_, ?_, ?_, ?_, ?_, hsmall, h.bigOk, h.live⟩, hruns, hcover⟩
  · rw [hbig]
    exact hchain _ _ h.chain
  · rw [hruns]
    exact h.runs
  · rw [hruns]
    exact h.apart
  · rw [hruns]
    exact h.aligned
  · rw [hruns]
    exact h.away

/-! ### Sizes -/

/-- One round of `find_order`, on a size that is not negative. -/
theorem findOrder_nat (n : Nat) :
    findOrder (n : Int) = if 4096 < n then findOrder ((n / 2 : Nat) : Int) + 1 else 0 := by
  rw [findOrder]
  have hhalf : ((n : Int) / 2) = ((n / 2 : Nat) : Int) := by omega
  by_cases h : 4096 < n
  · rw [if_pos h, if_pos (by omega), hhalf]
  · rw [if_neg h, if_neg (by omega)]

/-- The loop stops at the first half that fits into a page, rounded down. -/
theorem lt_findOrder (n : Nat) : n < 4097 * 2 ^ findOrder (n : Int) := by
  induction n using Nat.strong_induction_on with
  | _ n ih =>
      rw [findOrder_nat]
      by_cases h : 4096 < n
      · have hhalf := ih (n / 2) (by omega)
        rw [if_pos h, Nat.pow_succ]
        omega
      · rw [if_neg h]
        omega

/-- A size below `4097 * 2^i` gets at most the order `i`. -/
theorem findOrder_le {i : Nat} : ∀ {n : Nat}, n < 4097 * 2 ^ i → findOrder (n : Int) ≤ i := by
  induction i with
  | zero =>
      intro n hn
      rw [findOrder_nat, if_neg (by omega)]
  | succ i ih =>
      intro n hn
      rw [findOrder_nat]
      by_cases h : 4096 < n
      · have hhalf := ih (n := n / 2) (by rw [Nat.pow_succ] at hn; omega)
        rw [if_pos h]
        omega
      · rw [if_neg h]
        omega

/-- The sizes that `kmalloc` serves right: none in front of a page that leaves no room for a
header, none just behind a power of two of pages, and none beyond an `int`. -/
def SizeOk (size : Nat) : Prop :=
  size < 4064 ∨ 4080 ≤ size ∧ size < 2 ^ 31 ∧
    ∀ i, 4096 * 2 ^ (i + 1) < size → 4097 * 2 ^ (i + 1) ≤ size

/-- A size below `2^31` is the same number as an `int`. -/
theorem toInt_of_lt (h : size < 2 ^ 31) : toInt size = (size : Int) := by
  unfold toInt
  rw [BitVec.toInt_eq_toNat_cond]
  simp only [BitVec.toNat_ofNat]
  rw [Nat.mod_eq_of_lt (by omega), if_pos (by omega)]

/-- A size beyond an `int` gets fewer pages than it asks for. -/
theorem pages_lt_of_large (h : 2 ^ 31 ≤ size) : 4096 * 2 ^ findOrder (toInt size) < size := by
  by_cases hle : toInt size ≤ 4096
  · rw [findOrder, if_neg (by omega)]
    omega
  · obtain ⟨t, ht⟩ := Int.eq_ofNat_of_zero_le (a := toInt size) (by omega)
    have hlt : t < 2 ^ 31 := by
      have hbound := BitVec.toInt_lt (x := BitVec.ofNat 32 size)
      unfold toInt at ht
      omega
    have horder : findOrder (toInt size) ≤ 19 := by
      rw [ht]
      exact findOrder_le (by omega)
    have hpow : 2 ^ findOrder (toInt size) ≤ 2 ^ 19 := Nat.pow_le_pow_right (by omega) horder
    have hne : size ≠ 2 ^ 31 := by
      rintro rfl
      exact hle (by decide)
    omega

/-- The pages are enough for the size exactly when the size is served right. -/
theorem le_pages_iff (hsize : 4080 ≤ size) :
    size ≤ 4096 * 2 ^ findOrder (toInt size) ↔ SizeOk size := by
  constructor
  · intro hle
    have hint : size < 2 ^ 31 := by
      by_contra hlarge
      have hlt := pages_lt_of_large (show 2 ^ 31 ≤ size by omega)
      omega
    rw [toInt_of_lt hint] at hle
    refine Or.inr ⟨hsize, hint, ?_⟩
    intro i hi
    by_contra hbad
    have horder := findOrder_le (i := i + 1) (n := size) (by omega)
    have hpow : 2 ^ findOrder (size : Int) ≤ 2 ^ (i + 1) := Nat.pow_le_pow_right (by omega) horder
    omega
  · rintro (h | ⟨-, hint, hok⟩)
    · omega
    · rw [toInt_of_lt hint]
      have hlt := lt_findOrder size
      cases ho : findOrder (size : Int) with
      | zero =>
          rw [ho] at hlt
          omega
      | succ i =>
          rw [ho] at hlt
          by_contra hbad
          have hge := hok i (by omega)
          omega

/-! ### `kmalloc` -/

/-- A small block reaches its caller. -/
theorem KmallocOk.push_small {a : Alloc} (h : KmallocOk arena k live free pages small big [a.span])
    (ha : a.ptr = a.span.start + 1 ∧ k.units a.span.start = a.span.len ∧ 0 < a.size ∧
      a.size + 16 ≤ 16 * a.span.len) :
    KmallocOk arena k (a :: live) free pages (a :: small) big [] := by
  refine ⟨h.slob, h.chain, h.runs, h.apart, h.aligned, h.away, ?_, h.bigOk, h.live.cons a⟩
  intro x hx
  rcases List.mem_cons.mp hx with rfl | hx
  · exact ha
  · exact h.smallOk x hx

/-- `kmalloc` within a page. -/
theorem KmallocOk.malloc_small (h : KmallocOk arena k live free pages small big [])
    (hpos : 0 < size) (hsize : size < 4064) (pa : PageAlloc arena) :
    ∃ F ptr k', (∀ fuel, F ≤ fuel → kmalloc fuel pa k size = .ok (ptr, k')) ∧
      ∃ free' pages' small', KmallocOk arena k'
        (if ptr = 0 then live else k'.given ptr size :: live) free' pages' small' big [] := by
  have hslob : SlobOk arena k free (small.map Alloc.span ++ big.map Big.record) pages := h.slob
  have hunits : SLOB_UNITS (size + 16) = (size + 31) / 16 := rfl
  obtain ⟨F, m, k', hrun, hres⟩ := hslob.alloc pa (size + 16)
    (fun p hp => h.page_run hp) (by omega) (by omega) (by show size + 16 ≠ 4096; omega)
  refine ⟨F, if m = 0 then 0 else m + 1, k', ?_, ?_⟩
  · intro fuel hfuel
    unfold kmalloc slobAlloc
    rw [if_pos (by show size < 4080; omega), if_pos (by show size + 16 + 16 < 4096; omega),
      hrun fuel hfuel]
    rfl
  · rcases hres with ⟨rfl, rfl, -⟩ | ⟨hm, free', pages', hgave⟩
    · exact ⟨free, pages, small, h⟩
    · rw [if_neg hm, if_neg (by omega)]
      have hgiven : (k'.given (m + 1) size).span = ⟨m, SLOB_UNITS (size + 16)⟩ := by
        unfold Kmem.given
        rw [if_pos (by show size < 4080; omega)]
        show (⟨m + 1 - 1, k'.units (m + 1 - 1)⟩ : Span) = _
        rw [Nat.add_sub_cancel, hgave.units]
      have hpend := h.gave hgave
      rw [← hgiven] at hpend
      refine ⟨free', pages', _, hpend.push_small ?_⟩
      rw [hgiven]
      refine ⟨rfl, hgave.units, hpos, ?_⟩
      show size + 16 ≤ 16 * SLOB_UNITS (size + 16)
      omega

/-- Words that are no header of a free block may change. -/
theorem SlobOk.frame (h : SlobOk arena k free used pages)
    (hfree : ∀ x ∈ free, k'.lo x.start = k.lo x.start ∧ k'.hi x.start = k.hi x.start)
    (hrover : k'.slobfree = k.slobfree) : SlobOk arena k' free used pages := by
  refine ⟨⟨h.list.gap, ?_, ?_, ?_⟩, h.static, h.cells, h.apart, h.away, h.pos, h.len, h.count⟩
  · intro x hx
    rw [show k'.units x.start = k.units x.start from (hfree x hx).1]
    exact h.list.units x hx
  · refine h.list.cyc.congr ?_
    intro u hu
    obtain ⟨x, hx, rfl⟩ := List.mem_map.mp hu
    exact (hfree x hx).2
  · rw [hrover]
    exact h.list.rover

/-- Words that are no header may change. -/
theorem KmallocOk.frame (h : KmallocOk arena k live free pages small big pend)
    (hfree : ∀ x ∈ free, k'.lo x.start = k.lo x.start ∧ k'.hi x.start = k.hi x.start)
    (hsmall : ∀ a ∈ small, k'.lo a.span.start = k.lo a.span.start)
    (hbig : Keeps (big.map Big.record) k k') (hrover : k'.slobfree = k.slobfree)
    (hbigblocks : k'.bigblocks = k.bigblocks) (hruns : k'.runs = k.runs) :
    KmallocOk arena k' live free pages small big pend := by
  refine ⟨h.slob.frame hfree hrover, ?_, ?_, ?_, ?_, ?_, ?_, h.bigOk, h.live⟩
  · rw [hbigblocks]
    exact h.chain.keeps hbig
  · rw [hruns]
    exact h.runs
  · rw [hruns]
    exact h.apart
  · rw [hruns]
    exact h.aligned
  · rw [hruns]
    exact h.away
  · intro a ha
    obtain ⟨hptr, hunits, hrest⟩ := h.smallOk a ha
    exact ⟨hptr, (hsmall a ha).trans hunits, hrest⟩

/-- A block in the hands of the call can be written. -/
theorem KmallocOk.write {s : Span} (h : KmallocOk arena k live free pages small big [s])
    (hsame : ∀ u, u ∉ s → k'.lo u = k.lo u ∧ k'.hi u = k.hi u) (hrover : k'.slobfree = k.slobfree)
    (hbigblocks : k'.bigblocks = k.bigblocks) (hruns : k'.runs = k.runs) :
    KmallocOk arena k' live free pages small big [s] := by
  have hs : s ∈ [s] ++ (small.map Alloc.span ++ big.map Big.record) := by simp
  obtain ⟨-, hused, -⟩ := List.pairwise_append.mp h.slob.disjoint
  have hother : ∀ t ∈ small.map Alloc.span ++ big.map Big.record, s.Disjoint t :=
    (List.pairwise_cons.mp hused).1
  refine h.frame ?_ ?_ ?_ hrover hbigblocks hruns
  · intro x hx
    have hlen := h.slob.list.pos x hx
    exact hsame x.start (h.slob.free_used hx hs x.start (by simp only [Span.mem_iff]; omega))
  · intro a ha
    have hlen := h.smallOk a ha
    refine (hsame a.span.start fun hu => ?_).1
    exact hother a.span (List.mem_append_left _ (List.mem_map_of_mem ha)) a.span.start hu
      (by simp only [Span.mem_iff]; omega)
  · intro t ht u hu
    exact hsame u fun hus => hother t (List.mem_append_right _ ht) u hus hu

/-- The record and the pages reach the list of the big blocks. -/
theorem KmallocOk.push_big {g : Big} (h : KmallocOk arena k live free pages small big [g.record])
    (hp : pa.alloc k.runs (2 ^ g.order) = some g.alloc.ptr) (horder : k.order g.bb = g.order)
    (hpages : k.pages g.bb = g.alloc.ptr) (hnext : k.bigNext g.bb = k.bigblocks)
    (hspan : g.alloc.span = pageRun g.run) (hsize : g.alloc.size ≤ 16 * g.alloc.span.len) :
    KmallocOk arena { k with bigblocks := g.bb, runs := g.run :: k.runs } (g.alloc :: live) free
      pages small (g :: big) [] := by
  have hg : g.record ∈ [g.record] ++ (small.map Alloc.span ++ big.map Big.record) := by simp
  have hpos := h.slob.used_pos hg
  have hmiddle : (g.record :: (small.map Alloc.span ++ big.map Big.record)).Perm
      (small.map Alloc.span ++ g.record :: big.map Big.record) := List.perm_middle.symm
  have hslob := h.slob.perm hmiddle
  refine ⟨⟨⟨hslob.list.gap, hslob.list.units, hslob.list.cyc, hslob.list.rover⟩, hslob.static,
    hslob.cells, hslob.apart, hslob.away, hslob.pos, hslob.len, hslob.count⟩, ?_, ?_, ?_, ?_, ?_,
    h.smallOk, ?_, ?_⟩
  · refine ⟨rfl, Nat.ne_of_gt hpos, horder, hpages, ?_⟩
    show BigSeg _ (k.bigNext g.bb) big 0
    rw [hnext]
    have hkeeps : Keeps (big.map Big.record) k
        { k with bigblocks := g.bb, runs := g.run :: k.runs } := fun s hs u hu => ⟨rfl, rfl⟩
    exact h.chain.keeps hkeeps
  · exact (h.runs.cons g.run).trans List.perm_middle.symm
  · refine List.pairwise_cons.mpr ⟨?_, h.apart⟩
    intro t ht
    obtain ⟨r, hr, rfl⟩ := List.mem_map.mp ht
    exact pa.apart hp r hr
  · intro r hr
    rcases List.mem_cons.mp hr with rfl | hr
    · exact pa.pos hp
    · exact h.aligned r hr
  · intro r hr
    rcases List.mem_cons.mp hr with rfl | hr
    · exact pa.away hp
    · exact h.away r hr
  · intro x hx
    rcases List.mem_cons.mp hx with rfl | hx
    · exact ⟨hspan, hsize⟩
    · exact h.bigOk x hx
  · exact (h.live.cons g.alloc).trans List.perm_middle.symm

/-- `kmalloc` of pages. -/
theorem KmallocOk.malloc_big (h : KmallocOk arena k live free pages small big [])
    (hsize : 4080 ≤ size) (pa : PageAlloc arena) :
    ∃ F ptr k', (∀ fuel, F ≤ fuel → kmalloc fuel pa k size = .ok (ptr, k')) ∧
      (ptr = 0 → ∃ runs n, pa.alloc runs n = none) ∧
      (SizeOk size → ∃ free' pages' big', KmallocOk arena k'
        (if ptr = 0 then live else k'.given ptr size :: live) free' pages' small big' []) := by
  have hslob : SlobOk arena k free (small.map Alloc.span ++ big.map Big.record) pages := h.slob
  have hunits : SLOB_UNITS 24 = 2 := rfl
  obtain ⟨F, m, k₁, hrun, hres⟩ := hslob.alloc pa 24
    (fun p hp => h.page_run hp) (by omega) (by omega) (by decide)
  rcases hres with ⟨rfl, rfl, hnone⟩ | ⟨hm, free', pages', hgave⟩
  · refine ⟨F, 0, k₁, ?_, fun _ => ⟨_, _, hnone⟩, fun _ => ⟨free, pages, big, h⟩⟩
    intro fuel hfuel
    unfold kmalloc slobAlloc
    rw [if_neg (by show ¬ size < 4080; omega), if_pos (by decide), hrun fuel hfuel]
    rfl
  · rw [hunits] at hgave
    generalize ho : findOrder (toInt size) = o
    have hpend := h.gave hgave
    have hmem : ∀ u, u ∉ (⟨m, 2⟩ : Span) → u ≠ m ∧ u ≠ m + 1 := by
      intro u hu
      simp only [Span.mem_iff] at hu
      omega
    -- What the call does behind `slob_alloc`.
    have hcall : ∀ fuel, F ≤ fuel → kmalloc fuel pa k size =
        if (slobGetFreePages pa (k₁.setOrder m o) o).1 = 0 then do
          let k ← slobFree fuel ((slobGetFreePages pa (k₁.setOrder m o) o).2.setPages m
            (slobGetFreePages pa (k₁.setOrder m o) o).1) m BIGBLOCK_SIZE
          return (0, k)
        else .ok ((slobGetFreePages pa (k₁.setOrder m o) o).1,
          { (((slobGetFreePages pa (k₁.setOrder m o) o).2.setPages m
              (slobGetFreePages pa (k₁.setOrder m o) o).1).setBigNext m
            (slobGetFreePages pa (k₁.setOrder m o) o).2.bigblocks) with bigblocks := m }) := by
      intro fuel hfuel
      have horder : (k₁.setOrder m o).order m = o := Function.update_self ..
      unfold kmalloc slobAlloc
      rw [if_neg (by show ¬ size < 4080; omega), if_pos (by decide), hrun fuel hfuel, ho]
      show (if m = 0 then _ else _) = _
      rw [if_neg hm, horder]
      rfl
    have hpend₁ : KmallocOk arena (k₁.setOrder m o) live free' pages' small big [⟨m, 2⟩] :=
      hpend.write (fun u hu => ⟨Function.update_of_ne (hmem u hu).1 .., rfl⟩) rfl rfl rfl
    cases hp : pa.alloc (k₁.setOrder m o).runs (2 ^ o) with
    | none =>
        rw [slobGetFreePages_none hp] at hcall
        have hpend₂ : KmallocOk arena ((k₁.setOrder m o).setPages m 0) live free' pages' small big
            [⟨m, 2⟩] :=
          hpend₁.write (fun u hu => ⟨rfl, Function.update_of_ne (hmem u hu).1 ..⟩) rfl rfl rfl
        obtain ⟨F', k', free'', hfree, hdone, -, -⟩ :=
          hpend₂.release BIGBLOCK_SIZE (n := 2) rfl
        refine ⟨max F F', 0, k', ?_, fun _ => ⟨_, _, hp⟩, fun _ => ⟨free'', pages', big, hdone⟩⟩
        intro fuel hfuel
        rw [hcall fuel (by omega), if_pos rfl]
        exact Halt.bind_eq_ok.mpr ⟨k', hfree fuel (by omega), rfl⟩
    | some p =>
        rw [slobGetFreePages_some hp] at hcall
        have hp0 : p ≠ 0 := Nat.ne_of_gt (pa.pos hp).1
        generalize hk₂ : ((k₁.setOrder m o).setPages m p).setBigNext m k₁.bigblocks = k₂
        have hpend₂ : KmallocOk arena k₂ live free' pages' small big [⟨m, 2⟩] := by
          refine hpend.write ?_ ?_ ?_ ?_ <;> rw [← hk₂]
          · intro u hu
            obtain ⟨h1, h2⟩ := hmem u hu
            exact ⟨(Function.update_of_ne h2 ..).trans (Function.update_of_ne h1 ..),
              Function.update_of_ne h1 ..⟩
          · rfl
          · rfl
          · rfl
        have hdone := fun hok : SizeOk size => hpend₂.push_big
          (g := ⟨m, o, ⟨p, size, pageRun (p, 2 ^ o)⟩⟩) (by rw [← hk₂]; exact hp)
          (by
            rw [← hk₂]
            exact (Function.update_of_ne (Nat.ne_of_lt (Nat.lt_succ_self m)) ..).trans
              (Function.update_self ..))
          (by rw [← hk₂]; exact Function.update_self ..)
          (by rw [← hk₂]; exact Function.update_self ..) rfl (by
            have hle := (le_pages_iff hsize).mpr hok
            rw [ho] at hle
            show size ≤ 16 * (2 ^ o * 256)
            omega)
        refine ⟨F, p, { k₂ with bigblocks := m, runs := (p, 2 ^ o) :: k₂.runs },
          fun fuel hfuel => (hcall fuel hfuel).trans ((if_neg hp0).trans (by rw [← hk₂]; rfl)),
          fun h0 => absurd h0 hp0, fun hok =>
            ⟨free', pages', ⟨m, o, ⟨p, size, pageRun (p, 2 ^ o)⟩⟩ :: big, ?_⟩⟩
        have hgiven : ∀ k : Kmem, k.given p size = ⟨p, size, pageRun (p, 2 ^ o)⟩ := by
          intro k
          unfold Kmem.given
          rw [if_neg (by show ¬ size < 4080; omega), ho]
        rw [if_neg hp0, hgiven]
        exact hdone hok

/-! ### `kfree` -/

/-- The runs of small and of big blocks have no page in common. -/
theorem KmallocOk.runs_apart (h : KmallocOk arena k live free pages small big pend) :
    ((pages.map (fun p => (p, 1)) ++ big.map Big.run).map pageRun).Pairwise Span.Disjoint :=
  (h.runs.map pageRun).pairwise h.apart Span.Disjoint.symm

/-- The pages of a big block lie apart from what the allocator has cut. -/
theorem KmallocOk.run_notMem (h : KmallocOk arena k live free pages small big pend) {g : Big}
    (hg : g ∈ big) {s : Span}
    (hs : s ∈ free ++ (pend ++ (small.map Alloc.span ++ big.map Big.record))) {u : Nat}
    (hu : u ∈ s) : u ∉ pageRun g.run := by
  have hrun : g.run ∈ k.runs :=
    h.runs.mem_iff.mpr (List.mem_append_right _ (List.mem_map_of_mem hg))
  have hpos : 0 < cover (ground arena pages) u := by
    rw [← h.slob.cells]
    exact cover_pos hs hu
  obtain ⟨t, ht, hut⟩ := exists_of_cover_pos hpos
  rcases List.mem_cons.mp ht with rfl | ht
  · have haway := h.away g.run hrun
    intro hu'
    simp only [Span.mem_iff, Span.stop, pageRun] at hut hu' haway
    omega
  · obtain ⟨p, hp, rfl⟩ := List.mem_map.mp ht
    have hapart := h.runs_apart
    rw [List.map_append] at hapart
    exact (List.pairwise_append.mp hapart).2.2 _ (List.mem_map_of_mem (List.mem_map_of_mem hp)) _
      (List.mem_map_of_mem (List.mem_map_of_mem hg)) u hut

/-- A big block begins in its run. -/
theorem Big.ptr_mem (g : Big) : g.alloc.ptr ∈ pageRun g.run := by
  have hpow : 0 < 2 ^ g.order := Nat.pow_pos (by omega)
  show g.alloc.ptr ≤ g.alloc.ptr ∧ g.alloc.ptr < g.alloc.ptr + 2 ^ g.order * 256
  omega

/-- A small block leaves its caller. -/
theorem KmallocOk.pop_small (h : KmallocOk arena k live free pages small big []) {a : Alloc}
    (ha : a ∈ small) :
    KmallocOk arena k (live.erase a) free pages (small.erase a) big [a.span] := by
  have hperm := List.perm_cons_erase ha
  refine ⟨h.slob.perm ?_, h.chain, h.runs, h.apart, h.aligned, h.away, ?_, h.bigOk, ?_⟩
  · exact (hperm.map Alloc.span).append_right _
  · intro x hx
    exact h.smallOk x (List.mem_of_mem_erase hx)
  · rw [← List.erase_append_left _ ha]
    exact h.live.erase a

/-- `kfree` of a small block. -/
theorem KmallocOk.free_small (h : KmallocOk arena k live free pages small big []) {a : Alloc}
    (ha : a ∈ small) :
    ∃ F k' free', (∀ fuel, F ≤ fuel → kfree fuel k a.ptr = .ok k') ∧
      KmallocOk arena k' (live.erase a) free' pages (small.erase a) big [] ∧ k'.runs = k.runs ∧
      ∀ p, cover free' p = cover free p + cover [a.span] p := by
  obtain ⟨hptr, hunits, hpos, hsize⟩ := h.smallOk a ha
  have hpop : KmallocOk arena k (live.erase a) free pages (small.erase a) big
      [⟨a.span.start, a.span.len⟩] := h.pop_small ha
  obtain ⟨F, k', free', hfree, hdone, hruns, hcover⟩ :=
    hpop.release 0 (by rw [if_pos rfl, hunits])
  refine ⟨max F (big.length + 1), k', free', ?_, hdone, hruns, hcover⟩
  intro fuel hfuel
  -- The address lies in a page of the allocator, so it is no big block.
  have hbig : bigOf fuel k a.ptr = .ok none := by
    unfold bigOf
    by_cases hpage : a.ptr % PAGE_UNITS = 0
    · rw [if_pos hpage]
      refine findBig_none h.chain ?_ fuel (by omega)
      intro g hg heq
      refine h.run_notMem hg (s := a.span) (u := a.ptr) ?_ ?_ (heq ▸ g.ptr_mem)
      · simp only [List.nil_append, List.mem_append, List.mem_map]
        exact Or.inr (Or.inl ⟨a, ha, rfl⟩)
      · simp only [Span.mem_iff]
        omega
    · rw [if_neg hpage]
  unfold kfree
  rw [if_neg (by omega), hbig]
  show slobFree fuel k (a.ptr - 1) 0 = _
  rw [hptr, Nat.add_sub_cancel]
  exact hfree fuel (by omega)

/-- `*last = bb->next` takes the record off the list. -/
theorem unlinkBig_spec {gs hs : List Big} (hchain : BigSeg k k.bigblocks (gs ++ g :: hs) 0)
    (hapart : ((gs ++ g :: hs).map Big.record).Pairwise Span.Disjoint) :
    BigSeg (unlinkBig k (lastBb none gs) g.bb) (unlinkBig k (lastBb none gs) g.bb).bigblocks
      (gs ++ hs) 0 ∧
    (unlinkBig k (lastBb none gs) g.bb).order g.bb = g.order ∧
    (unlinkBig k (lastBb none gs) g.bb).slobfree = k.slobfree ∧
    (unlinkBig k (lastBb none gs) g.bb).runs = k.runs ∧
    (unlinkBig k (lastBb none gs) g.bb).hi = k.hi ∧
    ∀ u, (∀ x ∈ gs, u ≠ x.bb + 1) → (unlinkBig k (lastBb none gs) g.bb).lo u = k.lo u := by
  obtain ⟨hfront, hback⟩ := bigSeg_append.mp hchain
  obtain ⟨-, -, horder, -, hrest⟩ := hback
  rcases List.eq_nil_or_concat gs with rfl | ⟨gs, l, rfl⟩
  · have hkeeps : Keeps (hs.map Big.record) k { k with bigblocks := k.bigNext g.bb } :=
      fun s hs u hu => ⟨rfl, rfl⟩
    exact ⟨hrest.keeps hkeeps, horder, rfl, rfl, rfl, fun u hu => rfl⟩
  · rw [List.concat_eq_append] at hfront hapart ⊢
    rw [lastBb_concat]
    -- Only the link of the record in front changes, and no other record has that word.
    have hne : ∀ x ∈ gs ++ (g :: hs), l.bb + 1 ∉ x.record := by
      intro x hx hmem
      have hl : l.bb + 1 ∈ l.record := by
        simp only [Big.record, Span.mem_iff]
        omega
      rw [List.append_assoc, List.singleton_append, List.map_append, List.map_cons] at hapart
      obtain ⟨-, hright, hcross⟩ := List.pairwise_append.mp hapart
      rcases List.mem_append.mp hx with hx | hx
      · exact hcross x.record (List.mem_map_of_mem hx) l.record List.mem_cons_self _ hmem hl
      · exact (List.pairwise_cons.mp hright).1 x.record (List.mem_map_of_mem hx) _ hl hmem
    have hkeeps : ∀ xs : List Big, (∀ x ∈ xs, x ∈ gs ++ (g :: hs)) →
        Keeps (xs.map Big.record) k (k.setBigNext l.bb (k.bigNext g.bb)) := by
      intro xs hxs s hs u hu
      obtain ⟨x, hx, rfl⟩ := List.mem_map.mp hs
      refine ⟨Function.update_of_ne ?_ .., rfl⟩
      rintro rfl
      exact hne x (hxs x hx) hu
    obtain ⟨hfront, hl⟩ := bigSeg_append.mp hfront
    obtain ⟨-, hl0, hlorder, hlpages, -⟩ := hl
    refine ⟨?_, ?_, rfl, rfl, rfl, ?_⟩
    · show BigSeg (k.setBigNext l.bb (k.bigNext g.bb)) k.bigblocks (gs ++ [l] ++ hs) 0
      rw [List.append_assoc, List.singleton_append]
      refine bigSeg_append.mpr ⟨hfront.keeps (hkeeps gs fun x hx => List.mem_append_left _ hx),
        rfl, hl0, ?_, hlpages, ?_⟩
      · exact (Function.update_of_ne (Nat.ne_of_lt (Nat.lt_succ_self _)) ..).trans hlorder
      · have hnext : (k.setBigNext l.bb (k.bigNext g.bb)).bigNext l.bb = k.bigNext g.bb :=
          Function.update_self ..
        rw [hnext]
        refine hrest.keeps (hkeeps hs fun x hx => ?_)
        exact List.mem_append_right _ (List.mem_cons_of_mem g hx)
    · refine (Function.update_of_ne ?_ ..).trans horder
      intro heq
      apply hne g (by simp)
      simp only [Big.record, Span.mem_iff]
      omega
    · intro u hu
      exact Function.update_of_ne (hu l (by simp)) ..

/-- `kfree` of a big block. -/
theorem KmallocOk.free_big (h : KmallocOk arena k live free pages small big []) (hg : g ∈ big) :
    ∃ F k' free' big', (∀ fuel, F ≤ fuel → kfree fuel k g.alloc.ptr = .ok k') ∧
      KmallocOk arena k' (live.erase g.alloc) free' pages small big' [] ∧
      k'.runs = k.runs.erase g.run ∧ ∀ p, cover free' p = cover free p + cover [g.record] p := by
  obtain ⟨gs, hs, rfl⟩ := List.append_of_mem hg
  have hrun : g.run ∈ k.runs :=
    h.runs.mem_iff.mpr (List.mem_append_right _ (List.mem_map_of_mem hg))
  obtain ⟨hptr, hpage⟩ := h.aligned g.run hrun
  have hblocks : (small.map Alloc.span ++ (gs ++ g :: hs).map Big.record).Pairwise Span.Disjoint :=
    (List.pairwise_append.mp h.slob.disjoint).2.1
  have hrecords := (List.pairwise_append.mp hblocks).2.1
  have hruns : ((gs ++ g :: hs).map Big.run).Pairwise fun r t => (pageRun r).Disjoint (pageRun t) :=
    List.pairwise_map.mp (List.pairwise_append.mp (by
      rw [← List.map_append]
      exact h.runs_apart)).2.1
  have hother : ∀ x ∈ gs, x.alloc.ptr ≠ g.alloc.ptr := by
    intro x hx heq
    rw [List.map_append, List.map_cons] at hruns
    exact (List.pairwise_append.mp hruns).2.2 x.run (List.mem_map_of_mem hx) g.run
      List.mem_cons_self x.alloc.ptr x.ptr_mem (heq ▸ g.ptr_mem)
  obtain ⟨hchain, horder, hrover, hkruns, hhi, hlo⟩ := unlinkBig_spec h.chain hrecords
  generalize hk₁ : unlinkBig k (lastBb none gs) g.bb = k₁ at hchain horder hrover hkruns hhi hlo
  -- The words that change are in the records in front.
  have hused : ∀ s ∈ small.map Alloc.span, ∀ x ∈ gs, s.Disjoint x.record := by
    intro s hs x hx
    exact (List.pairwise_append.mp hblocks).2.2 s hs x.record
      (List.mem_map_of_mem (List.mem_append_left _ hx))
  have hsmall : ∀ a ∈ small, k₁.lo a.span.start = k.lo a.span.start := by
    intro a ha
    have hlen := h.smallOk a ha
    apply hlo
    intro x hx heq
    refine hused a.span (List.mem_map_of_mem ha) x hx a.span.start ?_ ?_
    · simp only [Span.mem_iff]
      omega
    · simp only [Big.record, Span.mem_iff]
      omega
  have hfree : ∀ x ∈ free, k₁.lo x.start = k.lo x.start ∧ k₁.hi x.start = k.hi x.start := by
    intro x hx
    have hlen := h.slob.list.pos x hx
    rw [hhi]
    refine ⟨hlo x.start fun y hy heq => ?_, rfl⟩
    refine h.slob.free_used (s := y.record) hx ?_ x.start ?_ ?_
    · exact List.mem_append_right _
        (List.mem_append_right _ (List.mem_map_of_mem (List.mem_append_left _ hy)))
    · simp only [Span.mem_iff]
      omega
    · simp only [Big.record, Span.mem_iff]
      omega
  have hmiddle : ∀ {β : Type} (f : Big → β) (xs : List β),
      (xs ++ (gs ++ g :: hs).map f).Perm (f g :: (xs ++ (gs ++ hs).map f)) := by
    intro β f xs
    have hperm : ((gs ++ g :: hs).map f).Perm (f g :: (gs ++ hs).map f) :=
      List.perm_middle.map f
    exact (hperm.append_left xs).trans List.perm_middle
  have hdone : KmallocOk arena { k₁ with runs := k.runs.erase g.run } (live.erase g.alloc) free
      pages small (gs ++ hs) [⟨g.bb, 2⟩] := by
    have hsub : (k.runs.erase g.run).Sublist k.runs := List.erase_sublist
    have hslob := (h.slob.frame hfree hrover).perm (hmiddle Big.record _)
    have hkeeps : Keeps ((gs ++ hs).map Big.record) k₁
        { k₁ with runs := k.runs.erase g.run } := fun s hs u hu => ⟨rfl, rfl⟩
    refine ⟨⟨⟨hslob.list.gap, hslob.list.units, hslob.list.cyc, hslob.list.rover⟩, hslob.static,
      hslob.cells, hslob.apart, hslob.away, hslob.pos, hslob.len, hslob.count⟩,
      hchain.keeps hkeeps, ?_, h.apart.sublist (hsub.map pageRun), fun r hr =>
      h.aligned r (hsub.subset hr), fun r hr => h.away r (hsub.subset hr), ?_, ?_, ?_⟩
    · have hperm := (h.runs.trans (hmiddle Big.run _)).erase g.run
      rwa [List.erase_cons_head] at hperm
    · intro a ha
      obtain ⟨hptr', hunits, hrest⟩ := h.smallOk a ha
      exact ⟨hptr', (hsmall a ha).trans hunits, hrest⟩
    · intro x hx
      apply h.bigOk x
      simp only [List.mem_append, List.mem_cons] at hx ⊢
      tauto
    · have hperm := (h.live.trans (hmiddle Big.alloc _)).erase g.alloc
      rwa [List.erase_cons_head] at hperm
  obtain ⟨F, k', free', hslobfree, hdone', hruns', hcover⟩ :=
    hdone.release BIGBLOCK_SIZE (n := 2) rfl
  refine ⟨max F (gs.length + 1), k', free', gs ++ hs, ?_, hdone', hruns', hcover⟩
  intro fuel hfuel
  have hbig : bigOf fuel k g.alloc.ptr = .ok (some (lastBb none gs, g.bb)) := by
    exact (if_pos hpage).trans (findBig_spec rfl h.chain hother fuel (by omega))
  have hptr0 : g.alloc.ptr ≠ 0 := Nat.ne_of_gt hptr
  unfold kfree
  rw [if_neg hptr0, hbig]
  show slobFree fuel (slobFreePages (unlinkBig k (lastBb none gs) g.bb) g.alloc.ptr
    ((unlinkBig k (lastBb none gs) g.bb).order g.bb)) g.bb BIGBLOCK_SIZE = _
  rw [hk₁, horder]
  unfold slobFreePages
  rw [hkruns]
  exact hslobfree fuel (by omega)

/-! ### Runs -/

/-- `kmalloc` returns, and keeps the invariant with the new block among the live ones. -/
theorem KmallocOk.malloc (h : KmallocOk arena k live free pages small big []) (hpos : 0 < size)
    (hok : SizeOk size) (pa : PageAlloc arena) :
    ∃ F ptr k', (∀ fuel, F ≤ fuel → kmalloc fuel pa k size = .ok (ptr, k')) ∧
      ∃ free' pages' small' big', KmallocOk arena k'
        (if ptr = 0 then live else k'.given ptr size :: live) free' pages' small' big' [] := by
  by_cases hsize : size < 4064
  · obtain ⟨F, ptr, k', hrun, free', pages', small', hdone⟩ := h.malloc_small hpos hsize pa
    exact ⟨F, ptr, k', hrun, free', pages', small', big, hdone⟩
  · obtain ⟨F, ptr, k', hrun, -, hdone⟩ := h.malloc_big
      (show 4080 ≤ size by rcases hok with hok | hok <;> omega) pa
    obtain ⟨free', pages', big', hdone⟩ := hdone hok
    exact ⟨F, ptr, k', hrun, free', pages', small, big', hdone⟩

/-- A live block is a small one or a big one. -/
theorem KmallocOk.mem_live (h : KmallocOk arena k live free pages small big []) {a : Alloc}
    (ha : a ∈ live) : a ∈ small ∨ ∃ g ∈ big, g.alloc = a := by
  rcases List.mem_append.mp (h.live.mem_iff.mp ha) with ha | ha
  · exact Or.inl ha
  · exact Or.inr (List.mem_map.mp ha)

/-- What `kfree` gives back: the block with its header, or the page run and its record. -/
def Returned (k k' : Kmem) (a : Alloc) : Prop :=
  a.ptr = a.span.start + 1 ∧ k'.runs = k.runs ∧ (∀ u, k'.Free u ↔ k.Free u ∨ u ∈ a.span) ∨
    ∃ n bb, a.span = pageRun (a.ptr, n) ∧ (a.ptr, n) ∈ k.runs ∧
      k'.runs = k.runs.erase (a.ptr, n) ∧ k.Record bb ∧ k.pages bb = a.ptr ∧
      ∀ u, k'.Free u ↔ k.Free u ∨ u ∈ (⟨bb, 2⟩ : Span)

/-- The cells of the free list. -/
theorem FreeList.free_iff (h : FreeList k free) (u : Nat) : k.Free u ↔ 0 < cover free u := by
  constructor
  · rintro ⟨i, hi⟩
    obtain ⟨x, hx, hstart⟩ := List.mem_map.mp (h.cyc.iterate_mem h.rover i)
    rw [← hstart, (h.units x hx).1] at hi
    exact cover_pos hx hi
  · intro hpos
    obtain ⟨x, hx, hu⟩ := exists_of_cover_pos hpos
    obtain ⟨i, hi⟩ := h.cyc.reach h.rover (List.mem_map_of_mem hx)
    refine ⟨i, ?_⟩
    rw [hi, (h.units x hx).1]
    exact hu

/-- What is free before and after a block has been put into the list. -/
theorem FreeList.free_iff_of_cover (h : FreeList k free) (h' : FreeList k' free') {s : Span}
    (hcover : ∀ p, cover free' p = cover free p + cover [s] p) (u : Nat) :
    k'.Free u ↔ k.Free u ∨ u ∈ s := by
  rw [h'.free_iff, h.free_iff, hcover, cover_cons, cover_nil]
  split <;> simp_all

/-- The records that are reached are those of the big blocks. -/
theorem record_iff (h : BigSeg k k.bigblocks big 0) (bb : Nat) :
    k.Record bb ↔ ∃ g ∈ big, g.bb = bb := by
  constructor
  · intro hbb
    induction hbb with
    | head hne =>
        cases big with
        | nil => exact absurd h hne
        | cons g gs => exact ⟨g, List.mem_cons_self, h.1.symm⟩
    | next _ hne ih =>
        obtain ⟨g, hg, rfl⟩ := ih
        obtain ⟨gs, hs, rfl⟩ := List.append_of_mem hg
        obtain ⟨-, hback⟩ := bigSeg_append.mp h
        have hrest := hback.2.2.2.2
        cases hs with
        | nil => exact absurd hrest hne
        | cons y hs => exact ⟨y, by simp, hrest.1.symm⟩
  · have key : ∀ (gs : List Big) (p : Nat), BigSeg k p gs 0 → (p ≠ 0 → k.Record p) →
        ∀ g ∈ gs, k.Record g.bb := by
      intro gs
      induction gs with
      | nil => intro p _ _ g hg; cases hg
      | cons x gs ih =>
          rintro p ⟨rfl, hp, -, -, hrest⟩ hrec g hg
          rcases List.mem_cons.mp hg with rfl | hg
          · exact hrec hp
          · exact ih _ hrest (fun hne => (hrec hp).next hne) g hg
    rintro ⟨g, hg, rfl⟩
    exact key big k.bigblocks h (fun hne => .head hne) g hg

/-- `kfree` of a live block returns, gives back exactly that block, and keeps the invariant. -/
theorem KmallocOk.kfree (h : KmallocOk arena k live free pages small big []) {a : Alloc}
    (ha : a ∈ live) :
    ∃ F k', (∀ fuel, F ≤ fuel → kfree fuel k a.ptr = .ok k') ∧ Returned k k' a ∧
      ∃ free' small' big', KmallocOk arena k' (live.erase a) free' pages small' big' [] := by
  rcases h.mem_live ha with ha | ⟨g, hg, rfl⟩
  · obtain ⟨F, k', free', hrun, hdone, hruns, hcover⟩ := h.free_small ha
    refine ⟨F, k', hrun, Or.inl ⟨(h.smallOk a ha).1, hruns, ?_⟩, free', _, big, hdone⟩
    exact h.slob.list.free_iff_of_cover hdone.slob.list hcover
  · obtain ⟨F, k', free', big', hrun, hdone, hruns, hcover⟩ := h.free_big hg
    have hmem : g.run ∈ k.runs :=
      h.runs.mem_iff.mpr (List.mem_append_right _ (List.mem_map_of_mem hg))
    obtain ⟨gs, hs, rfl⟩ := List.append_of_mem hg
    obtain ⟨-, hback⟩ := bigSeg_append.mp h.chain
    refine ⟨F, k', hrun, Or.inr ⟨2 ^ g.order, g.bb, (h.bigOk g hg).1, hmem, hruns,
      (record_iff h.chain g.bb).mpr ⟨g, hg, rfl⟩, hback.2.2.2.1, ?_⟩, free', small, big', hdone⟩
    exact h.slob.list.free_iff_of_cover hdone.slob.list hcover

/-- The cells that a caller may write are no part of a free block, of a record or of another
block. -/
theorem KmallocOk.user_cells (h : KmallocOk arena k live free pages small big []) {a : Alloc}
    (ha : a ∈ live) {u : Nat} (hu : a.ptr ≤ u ∧ u < a.span.stop) :
    u ∈ a.span ∧ (∀ x ∈ free, u ∉ x) ∧ (∀ x ∈ small, u ≠ x.span.start) ∧
      ∀ g ∈ big, u ∉ g.record := by
  have hdisjoint := h.slob.disjoint
  rcases h.mem_live ha with ha | ⟨g, hg, rfl⟩
  · obtain ⟨hptr, -, hpos, hsize⟩ := h.smallOk a ha
    have hblocks : (small.map Alloc.span ++ big.map Big.record).Pairwise Span.Disjoint :=
      (List.pairwise_append.mp hdisjoint).2.1
    obtain ⟨hsmall, -, hcross⟩ := List.pairwise_append.mp hblocks
    have hspan : u ∈ a.span := ⟨by omega, hu.2⟩
    refine ⟨hspan, ?_, ?_, ?_⟩
    · intro x hx hux
      refine h.slob.free_used (s := a.span) hx ?_ u hux hspan
      simp only [List.nil_append, List.mem_append, List.mem_map]
      exact Or.inl ⟨a, ha, rfl⟩
    · rintro x hx rfl
      by_cases hxa : x = a
      · rw [hxa] at hu
        omega
      · have hlen := h.smallOk x hx
        have hsymm : Std.Symm fun x y : Alloc => x.span.Disjoint y.span :=
          ⟨fun _ _ => Span.Disjoint.symm⟩
        have hother := (List.pairwise_map.mp hsmall).forall hx ha hxa
        exact hother x.span.start (by simp only [Span.mem_iff]; omega) hspan
    · intro g hg
      exact hcross a.span (List.mem_map_of_mem ha) g.record (List.mem_map_of_mem hg) u hspan
  · obtain ⟨hrun, -⟩ := h.bigOk g hg
    have hspan : u ∈ g.alloc.span := by
      rw [hrun] at hu ⊢
      exact hu
    have hnot : ∀ s ∈ free ++ ([] ++ (small.map Alloc.span ++ big.map Big.record)), u ∉ s := by
      intro s hs hus
      rw [hrun] at hspan
      exact h.run_notMem hg hs hus hspan
    refine ⟨hspan, fun x hx => hnot x (List.mem_append_left _ hx), ?_, ?_⟩
    · rintro x hx rfl
      have hlen := h.smallOk x hx
      refine hnot x.span ?_ (by simp only [Span.mem_iff]; omega)
      simp only [List.nil_append, List.mem_append, List.mem_map]
      exact Or.inr (Or.inl ⟨x, hx, rfl⟩)
    · intro x hx
      apply hnot
      simp only [List.nil_append, List.mem_append, List.mem_map]
      exact Or.inr (Or.inr ⟨x, hx, rfl⟩)

/-- What a caller writes is no header. -/
theorem KmallocOk.user_write (h : KmallocOk arena k live free pages small big []) {a : Alloc}
    (ha : a ∈ live) {lo hi : Nat → Nat}
    (hsame : ∀ u, u < a.ptr ∨ a.span.stop ≤ u → lo u = k.lo u ∧ hi u = k.hi u) :
    KmallocOk arena { k with lo := lo, hi := hi } live free pages small big [] := by
  have hout : ∀ u, ¬ (a.ptr ≤ u ∧ u < a.span.stop) → lo u = k.lo u ∧ hi u = k.hi u :=
    fun u hu => hsame u (by omega)
  refine h.frame ?_ ?_ ?_ rfl rfl rfl
  · intro x hx
    have hlen := h.slob.list.pos x hx
    refine hout x.start fun hu => (h.user_cells ha hu).2.1 x hx ?_
    simp only [Span.mem_iff]
    omega
  · intro x hx
    exact (hout x.span.start fun hu => (h.user_cells ha hu).2.2.1 x hx rfl).1
  · intro s hs u hus
    obtain ⟨g, hg, rfl⟩ := List.mem_map.mp hs
    exact hout u fun hu => (h.user_cells ha hu).2.2.2 g hg hus

/-- The invariant holds in every state of a run. -/
theorem kmallocOk_of_run (h : KmallocRun arena SizeOk k live) :
    ∃ free pages small big, KmallocOk arena k live free pages small big [] := by
  induction h with
  | init k hinit =>
      obtain ⟨ha, hunits, hnext, hrover, hbig, hruns⟩ := hinit
      refine ⟨[⟨arena, 1⟩], [], [], [], ⟨⟨⟨by simp, ?_, hnext, ?_⟩, by simp, fun p => rfl,
        by simp [ground], by simp, by simp, by simp, rfl⟩, hbig, ?_, ?_, ?_, ?_, by simp,
        by simp, List.Perm.refl _⟩⟩
      · intro b hb
        obtain rfl : b = ⟨arena, 1⟩ := by simpa using hb
        exact ⟨hunits, Nat.one_pos⟩
      · simp [hrover]
      all_goals simp [hruns]
  | malloc fuel pa ptr size _ hpos hok hrun hptr ih =>
      obtain ⟨free, pages, small, big, h⟩ := ih
      obtain ⟨F, ptr', k'', hall, free', pages', small', big', hdone⟩ := h.malloc hpos hok pa
      have hmax := kmalloc_mono (Nat.le_max_left fuel F) hrun
      rw [hall _ (Nat.le_max_right fuel F)] at hmax
      cases hmax
      rw [if_neg hptr] at hdone
      exact ⟨free', pages', small', big', hdone⟩
  | mallocNull fuel pa size _ hpos hok hrun ih =>
      obtain ⟨free, pages, small, big, h⟩ := ih
      obtain ⟨F, ptr', k'', hall, free', pages', small', big', hdone⟩ := h.malloc hpos hok pa
      have hmax := kmalloc_mono (Nat.le_max_left fuel F) hrun
      rw [hall _ (Nat.le_max_right fuel F)] at hmax
      cases hmax
      exact ⟨free', pages', small', big', hdone⟩
  | free fuel a _ ha hrun ih =>
      obtain ⟨free, pages, small, big, h⟩ := ih
      obtain ⟨F, k'', hall, -, free', small', big', hdone⟩ := h.kfree ha
      have hmax := kfree_mono (Nat.le_max_left fuel F) hrun
      rw [hall _ (Nat.le_max_right fuel F)] at hmax
      cases hmax
      exact ⟨free', pages, small', big', hdone⟩
  | write a lo hi _ ha hsame ih =>
      obtain ⟨free, pages, small, big, h⟩ := ih
      exact ⟨free, pages, small, big, h.user_write ha hsame⟩

/-- The page behind all runs that have been handed out. -/
def bumpPage (arena : Nat) (runs : List (Nat × Nat)) : Nat :=
  (arena + 2 + total (runs.map pageRun) + (runs.map Prod.fst).sum) * 256

/-- A run begins at a page, and not at zero. -/
theorem bumpPage_pos (arena : Nat) (runs : List (Nat × Nat)) :
    0 < bumpPage arena runs ∧ bumpPage arena runs % PAGE_UNITS = 0 := by
  unfold bumpPage
  exact ⟨by omega, Nat.mul_mod_left _ _⟩

/-- A new run is disjoint from those handed out. -/
theorem bumpPage_apart (arena n : Nat) {runs : List (Nat × Nat)} {r : Nat × Nat} (hr : r ∈ runs) :
    (pageRun (bumpPage arena runs, n)).Disjoint (pageRun r) := by
  intro u hu hur
  have hfst : r.1 ≤ (runs.map Prod.fst).sum := List.single_le_sum (by simp) _
    (List.mem_map_of_mem hr)
  have hlen : r.2 * PAGE_UNITS ≤ total (runs.map pageRun) :=
    List.single_le_sum (by simp) _ (List.mem_map_of_mem (List.mem_map_of_mem hr))
  simp only [Span.mem_iff, pageRun, bumpPage] at hu hur
  omega

/-- A new run lies behind the static arena. -/
theorem bumpPage_away (arena : Nat) (runs : List (Nat × Nat)) : arena + 1 < bumpPage arena runs := by
  unfold bumpPage
  omega

/-- A page allocator that always answers, behind everything it has handed out. -/
def bumpAlloc (arena : Nat) : PageAlloc arena where
  alloc runs _ := some (bumpPage arena runs)
  pos h := Option.some.inj h ▸ bumpPage_pos arena _
  apart h _ hr := Option.some.inj h ▸ bumpPage_apart arena _ hr
  away h := Or.inr (Option.some.inj h ▸ bumpPage_away arena _)

/-- The live blocks with their headers are disjoint. -/
theorem KmallocOk.live_disjoint (h : KmallocOk arena k live free pages small big []) :
    (live.map Alloc.span).Pairwise Span.Disjoint := by
  have hblocks : (small.map Alloc.span ++ big.map Big.record).Pairwise Span.Disjoint :=
    (List.pairwise_append.mp h.slob.disjoint).2.1
  have hruns : (big.map fun g => pageRun g.run).Pairwise Span.Disjoint := by
    have hapart := h.runs_apart
    rw [List.map_append, List.map_map (g := pageRun) (f := Big.run)] at hapart
    exact (List.pairwise_append.mp hapart).2.1
  have hspans : (big.map Big.alloc).map Alloc.span = big.map fun g => pageRun g.run := by
    rw [List.map_map]
    exact List.map_congr_left fun g hg => (h.bigOk g hg).1
  refine (h.live.map Alloc.span).symm.pairwise ?_ Span.Disjoint.symm
  rw [List.map_append, hspans]
  refine List.pairwise_append.mpr ⟨(List.pairwise_append.mp hblocks).1, hruns, ?_⟩
  intro s hs t ht u hus
  obtain ⟨g, hg, rfl⟩ := List.mem_map.mp ht
  refine h.run_notMem hg (s := s) ?_ hus
  simp only [List.nil_append, List.mem_append]
  exact Or.inr (Or.inl hs)

/-- A live block has room for its size behind its address. -/
theorem KmallocOk.room (h : KmallocOk arena k live free pages small big []) {a : Alloc}
    (ha : a ∈ live) : a.ptr ≠ 0 ∧ a.size ≤ 16 * (a.span.stop - a.ptr) := by
  rcases h.mem_live ha with ha | ⟨g, hg, rfl⟩
  · obtain ⟨hptr, -, hpos, hsize⟩ := h.smallOk a ha
    unfold Span.stop
    omega
  · obtain ⟨hrun, hsize⟩ := h.bigOk g hg
    have hmem : g.run ∈ k.runs :=
      h.runs.mem_iff.mpr (List.mem_append_right _ (List.mem_map_of_mem hg))
    have hpos : 0 < g.alloc.ptr := (h.aligned g.run hmem).1
    have hstart : g.alloc.span.start = g.alloc.ptr := by
      rw [hrun]
      rfl
    unfold Span.stop
    omega

/-- A size that leaves no room for a header in front of a page fails the assertion. -/
theorem kmalloc_assert (h₁ : 4064 ≤ size) (h₂ : size < 4080) :
    kmalloc fuel pa k size = .error .assert := by
  unfold kmalloc slobAlloc
  rw [if_pos (by show size < 4080; omega), if_neg (by show ¬ size + 16 + 16 < 4096; omega)]
  rfl

/-- When the page allocator answers, the block of a size that is served wrong is too small. -/
theorem KmallocOk.sizeOk_of_malloc (h : KmallocOk arena k live free pages small big [])
    {F ptr : Nat} (hrun : ∀ fuel, F ≤ fuel →
      kmalloc fuel (bumpAlloc arena) k size = .ok (ptr, k'))
    (hroom : ptr = 0 ∨ size ≤ 16 * ((k'.given ptr size).span.stop - ptr)) : SizeOk size := by
  by_cases h₁ : size < 4064
  · exact Or.inl h₁
  · by_cases h₂ : size < 4080
    · have hassert := hrun F (le_refl F)
      rw [kmalloc_assert (by omega) h₂] at hassert
      cases hassert
    · obtain ⟨F', ptr', k'', hrun', hnone, -⟩ := h.malloc_big (show 4080 ≤ size by omega)
        (bumpAlloc arena)
      have hmax := hrun (max F F') (Nat.le_max_left F F')
      rw [hrun' _ (Nat.le_max_right F F')] at hmax
      cases hmax
      have hne : ptr ≠ 0 := by
        intro h0
        obtain ⟨runs, n, hbump⟩ := hnone h0
        cases hbump
      rw [← le_pages_iff (by omega)]
      have hspan : (k'.given ptr size).span = pageRun (ptr, 2 ^ findOrder (toInt size)) :=
        if_neg (by show ¬ size < 4080; omega)
      rw [hspan] at hroom
      replace hroom : size ≤ 16 * (ptr + 2 ^ findOrder (toInt size) * 256 - ptr) :=
        hroom.resolve_left hne
      omega

/-- In every state of every run whose sizes are served right: the live blocks are disjoint, each
has room for its size, and its cells are no part of the static block, of a free block, of a
record or of the header of a block. `kfree` of a live block returns and gives back exactly that
block. And `kmalloc` of a size returns NULL or a block with room, whatever the page allocator
answers, exactly when the size is one of those. -/
theorem kmalloc_sound (h : KmallocRun arena SizeOk k live) :
    (live.map Alloc.span).Pairwise Span.Disjoint ∧
    (∀ a ∈ live, a.ptr ≠ 0 ∧ a.size ≤ SLOB_UNIT * (a.span.stop - a.ptr) ∧
      ∀ u, a.ptr ≤ u → u < a.span.stop → u ∈ a.span ∧ u ≠ arena ∧ ¬ k.Free u ∧
        (∀ bb, k.Record bb → u ∉ (⟨bb, 2⟩ : Span)) ∧
        ∀ x ∈ live, u ∈ x.span → x.ptr ≤ u) ∧
    (∀ a ∈ live, ∃ F k', (∀ fuel, F ≤ fuel → kfree fuel k a.ptr = .ok k') ∧ Returned k k' a) ∧
    ∀ size, 0 < size → (SizeOk size ↔ ∀ pa : PageAlloc arena, ∃ F ptr k',
      (∀ fuel, F ≤ fuel → kmalloc fuel pa k size = .ok (ptr, k')) ∧
        (ptr = 0 ∨ size ≤ SLOB_UNIT * ((k'.given ptr size).span.stop - ptr))) := by
  obtain ⟨free, pages, small, big, h⟩ := kmallocOk_of_run h
  refine ⟨h.live_disjoint, ?_, ?_, ?_⟩
  · intro a ha
    obtain ⟨hptr, hsize⟩ := h.room ha
    refine ⟨hptr, hsize, ?_⟩
    intro u hlow hhigh
    obtain ⟨hspan, hfree, -, hrecord⟩ := h.user_cells ha ⟨hlow, hhigh⟩
    -- A cell of the user part belongs to this allocation alone: it is not the arena's own block,
    -- not free, in no record of a large block, and not in another allocation.
    refine ⟨hspan, ?_, ?_, ?_, ?_⟩
    · rintro rfl
      exact hfree _ h.slob.static (by simp only [Span.mem_iff]; omega)
    · intro hf
      obtain ⟨x, hx, hux⟩ := exists_of_cover_pos ((h.slob.list.free_iff u).mp hf)
      exact hfree x hx hux
    · intro bb hbb
      obtain ⟨g, hg, rfl⟩ := (record_iff h.chain bb).mp hbb
      exact hrecord g hg
    · intro x hx hux
      by_cases hxa : x = a
      · rw [hxa]
        exact hlow
      · have hsymm : Std.Symm fun x y : Alloc => x.span.Disjoint y.span :=
          ⟨fun _ _ => Span.Disjoint.symm⟩
        have hother := (List.pairwise_map.mp h.live_disjoint).forall hx ha hxa
        exact absurd hspan (hother u hux)
  · intro a ha
    obtain ⟨F, k', hrun, hret, -⟩ := h.kfree ha
    exact ⟨F, k', hrun, hret⟩
  · intro size hpos
    constructor
    · intro hok pa
      obtain ⟨F, ptr, k', hrun, free', pages', small', big', hdone⟩ := h.malloc hpos hok pa
      refine ⟨F, ptr, k', hrun, ?_⟩
      by_cases hptr : ptr = 0
      · exact Or.inl hptr
      · rw [if_neg hptr] at hdone
        exact Or.inr (hdone.room List.mem_cons_self).2
    -- A size that is not `SizeOk` fails with memory to be had, so one allocator of pages is enough.
    · intro hall
      obtain ⟨F, ptr, k', hrun, hroom⟩ := hall (bumpAlloc arena)
      exact h.sizeOk_of_malloc hrun hroom

/-- The allocator before its first call. -/
def bootKmem : Kmem where
  lo _ := 1
  hi _ := 1
  slobfree := 1
  bigblocks := 0
  runs := []

/-- The heap at boot. -/
theorem bootKmem_init : bootKmem.Init 1 := ⟨Nat.one_ne_zero, rfl, rfl, rfl, rfl, rfl⟩

/-- A small block, a big one of two pages, and another small one, and the first is given back. -/
def mixedCheck : Option Bool := do
  let a ← (kmalloc 20 (bumpAlloc 1) bootKmem 100).toOption
  let b ← (kmalloc 20 (bumpAlloc 1) a.2 5000).toOption
  let c ← (kmalloc 20 (bumpAlloc 1) b.2 200).toOption
  let _ ← (kfree 20 c.2 769).toOption
  return decide ((a.1 = 769 ∧ a.2.given 769 100 = ⟨769, 100, ⟨768, 8⟩⟩) ∧
    (b.1 = 262912 ∧ b.2.given 262912 5000 = ⟨262912, 5000, ⟨262912, 512⟩⟩) ∧
    c.1 = 779 ∧ c.2.given 779 200 = ⟨779, 200, ⟨778, 14⟩⟩)

/-- What the run returns. -/
theorem mixedCheck_eq : mixedCheck = some true := by decide +kernel

/-- A size of two pages that gets two pages. -/
theorem sizeOk_twoPages : SizeOk 5000 := by
  refine Or.inr ⟨by decide, by decide, fun k hk => ?_⟩
  have hpow : 2 ^ 1 ≤ 2 ^ (k + 1) := Nat.pow_le_pow_right (by decide) (by omega)
  omega

/-- Behind these calls `kfree` of the big block returns and gives its two pages back, and a request
for all of a page returns. -/
theorem kmalloc_sound_mixed : ∃ k₃ k₄ : Kmem,
    KmallocRun 1 SizeOk k₃
      [⟨779, 200, ⟨778, 14⟩⟩, ⟨262912, 5000, ⟨262912, 512⟩⟩, ⟨769, 100, ⟨768, 8⟩⟩] ∧
    kfree 20 k₃ 769 = .ok k₄ ∧
    KmallocRun 1 SizeOk k₄ [⟨779, 200, ⟨778, 14⟩⟩, ⟨262912, 5000, ⟨262912, 512⟩⟩] ∧
    (∃ F k₅, (∀ fuel, F ≤ fuel → kfree fuel k₄ 262912 = .ok k₅) ∧
      Returned k₄ k₅ ⟨262912, 5000, ⟨262912, 512⟩⟩) ∧
    ∃ F ptr k', (∀ fuel, F ≤ fuel → kmalloc fuel (bumpAlloc 1) k₄ 4063 = .ok (ptr, k')) ∧
      (ptr = 0 ∨ 4063 ≤ SLOB_UNIT * ((k'.given ptr 4063).span.stop - ptr)) := by
  have hcheck := mixedCheck_eq
  unfold mixedCheck at hcheck
  obtain ⟨⟨a, k₁⟩, h₁, hcheck⟩ := Option.bind_eq_some_iff.mp hcheck
  obtain ⟨⟨b, k₂⟩, h₂, hcheck⟩ := Option.bind_eq_some_iff.mp hcheck
  obtain ⟨⟨c, k₃⟩, h₃, hcheck⟩ := Option.bind_eq_some_iff.mp hcheck
  obtain ⟨k₄, h₄, hcheck⟩ := Option.bind_eq_some_iff.mp hcheck
  obtain ⟨⟨rfl, hgiven₁⟩, ⟨rfl, hgiven₂⟩, rfl, hgiven₃⟩ :=
    of_decide_eq_true (Option.some.inj hcheck)
  have hrun₀ : KmallocRun 1 SizeOk bootKmem [] := .init bootKmem bootKmem_init
  have hrun₁ := hrun₀.malloc 20 (bumpAlloc 1) 769 100 (by decide) (Or.inl (by decide))
    (toOption_eq_some h₁) (by decide)
  rw [hgiven₁] at hrun₁
  have hrun₂ := hrun₁.malloc 20 (bumpAlloc 1) 262912 5000 (by decide) sizeOk_twoPages
    (toOption_eq_some h₂) (by decide)
  rw [hgiven₂] at hrun₂
  have hrun₃ := hrun₂.malloc 20 (bumpAlloc 1) 779 200 (by decide) (Or.inl (by decide))
    (toOption_eq_some h₃) (by decide)
  rw [hgiven₃] at hrun₃
  have hrun₄ := hrun₃.free 20 ⟨769, 100, ⟨768, 8⟩⟩ (by simp) (toOption_eq_some h₄)
  obtain ⟨-, -, hfree, hmalloc⟩ := kmalloc_sound hrun₄
  exact ⟨k₃, k₄, hrun₃, toOption_eq_some h₄, hrun₄, hfree ⟨262912, 5000, ⟨262912, 512⟩⟩ (by decide),
    (hmalloc 4063 (by decide)).mp (Or.inl (by decide)) (bumpAlloc 1)⟩

/-- The assertion of `slob_alloc` fails for 4064 bytes, which `kmalloc` still takes to fit into
a page with their header. -/
theorem kmalloc_4064 : KmallocRun 1 (fun _ => True) bootKmem [] ∧
    ∀ fuel (pa : PageAlloc 1), kmalloc fuel pa bootKmem 4064 = .error .assert :=
  ⟨.init bootKmem bootKmem_init, fun _ _ => kmalloc_assert (by omega) (by omega)⟩

end Ucore.Proofs.Mm
