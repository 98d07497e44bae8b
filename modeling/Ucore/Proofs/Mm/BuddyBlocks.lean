import Ucore.Lib.Buddies
import Ucore.Proofs.Mm.BuddyPmm

/-!
# `Ucore.Proofs.Mm.BuddyBlocks`: the buddy free lists are canonical

No two free blocks are buddies after any run (`buddy_inv_of_run`), so the blocks on the lists are
the dyadic blocks of free pages that cannot grow, and the set of free pages alone says which they
are. The pages of a live allocation count up to the power of two it was rounded to.

## What follows from the free pages alone

* `BuddyAreas.Inv.coalesced`: the lists have exactly the blocks `MaxBlock` of the free pages. The
  general fact about dyadic blocks is in `Ucore.Lib.Buddies`.
* `BuddyAreas.Inv.alloc_iff`: a request of up to half the range of `size_t` fails if and only if no
  block of free pages has its order or a larger one.
* `orderOf_never`: a larger request is never answered, so the bound in the theorem is exact.

## Every call returns

`BuddyAreas.Inv.alloc_returns` and `BuddyAreas.Inv.free_returns` say that there is fuel enough for
each call, also to free any live block, and `buddy_free_all` empties the list of live blocks in any
order. In `buddy_canonical_of_run` two runs that end with the same free pages have the same blocks
on their lists, so with everything freed the lists have the blocks of the start again.

`buddy_split_and_restore` is such a run: three requests that take the whole region, a fourth one
that fails, and the blocks freed in an order in which they are not adjacent.
-/

set_option autoImplicit false

namespace Ucore.Proofs.Mm

open Ucore.Lib
open Ucore.Libs
open Ucore.Mm

/-- The pages of the region that belong to no live block, rounded up. -/
def BuddyFree (sys : PmmSys BuddyAreas) (a n p : Nat) : Prop :=
  p ∈ (⟨a, n⟩ : Span) ∧ ∀ f ∈ sys.live, p ∉ roundUp f

/-- The lists, with the heads `F k` on the list of each order `k`, have every dyadic block
of free pages that cannot grow, and no two buddies. -/
structure Coalesced (sys : PmmSys BuddyAreas) (a n : Nat) (F : Nat → List Nat) : Prop where
  freeList : ∀ k < maxOrder,
    sys.mgr.links.Walk (.head k) ((F k).map FreeNode.page) (.head k)
  property : ∀ k < maxOrder, ∀ p ∈ F k, (sys.mgr.pages p).property = 2 ^ k
  nodup : ∀ k < maxOrder, (F k).Nodup
  noBuddies : NoBuddies F
  blocks : ∀ k p, k < maxOrder ∧ p ∈ F k ↔ MaxBlock (BuddyFree sys a n) (maxOrder - 1) k p

/-- The search fails when every list from its start on is empty. -/
theorem findArea_none {l : Links BuddyNode} : ∀ {d j : Nat},
    findArea l d j = none ↔ ∀ i, j ≤ i → i < j + d → listEmpty l (.head i) = true := by
  intro d
  induction d with
  | zero => intro j; simp [findArea]; omega
  | succ d ih =>
      intro j
      rw [findArea]
      split
      · rename_i he
        simp only [reduceCtorEq, false_iff]
        intro hall
        rw [hall j (Nat.le_refl j) (by omega)] at he
        cases he
      · rename_i he
        rw [ih]
        constructor
        · intro hall i hji hi
          rcases Nat.eq_or_lt_of_le hji with heq | hlt
          · subst heq
            simpa using he
          · exact hall i hlt (by omega)
        · exact fun hall i hji hi => hall i (by omega) (by omega)

/-- A request whose order is known. -/
theorem buddyAllocPages_eq {s : BuddyAreas} {fuel k order : Nat} (hk : 0 < k)
    (hord : orderOf fuel k = .ok order) : buddyAllocPages fuel s k =
      (findArea s.links (maxOrder - order) order).elim (.ok (none, s))
        fun j => takeBlock s j order := by
  unfold buddyAllocPages
  rw [if_neg (by omega), hord]
  simp only [bind, Except.bind]
  cases findArea s.links (maxOrder - order) order <;> rfl

/-- `order_of` ends for every request of at most half the range of `size_t`, after as many rounds as
the order has. -/
theorem orderOf_returns {n m fuel : Nat} (hn : n ≤ 2 ^ m) (hm : m < 64) (hf : m < fuel) :
    ∃ order, orderOf fuel n = .ok order := by
  have key : ∀ d k fuel, k + d = m → d < fuel →
      ∃ order, orderOfLoop n fuel (2 ^ k) k = .ok order := by
    intro d
    induction d with
    | zero =>
        intro k fuel hk hf
        obtain ⟨fuel, rfl⟩ := Nat.exists_eq_succ_of_ne_zero (Nat.ne_of_gt hf)
        obtain rfl : k = m := by omega
        rw [orderOfLoop, if_neg (by omega)]
        exact ⟨k, rfl⟩
    | succ d ih =>
        intro k fuel hk hf
        obtain ⟨fuel, rfl⟩ := Nat.exists_eq_succ_of_ne_zero (Nat.ne_of_gt (Nat.zero_lt_of_lt hf))
        rw [orderOfLoop]
        split
        · have hfit : 2 ^ (k + 1) < 2 ^ 64 := Nat.pow_lt_pow_right (by omega) (by omega)
          rw [Nat.shiftLeft_eq, Nat.pow_one, ← Nat.pow_succ, Nat.mod_eq_of_lt hfit]
          exact ih (k + 1) fuel (by omega) (by omega)
        · exact ⟨k, rfl⟩
  exact key m 0 fuel (by omega) hf

/-- Above that `sz` wraps around to zero, and `order_of` never ends. -/
theorem orderOf_never {n : Nat} (hn : 2 ^ 63 < n) (fuel order : Nat) : orderOf fuel n ≠ .ok order := by
  have key : ∀ fuel k, k < 64 → orderOfLoop n fuel (2 ^ k) k ≠ .ok order := by
    intro fuel
    induction fuel with
    | zero => intro k _ h; cases h
    | succ fuel ih =>
        intro k hk h
        have hle : 2 ^ k ≤ 2 ^ 63 := Nat.pow_le_pow_right (by omega) (by omega)
        rw [orderOfLoop, if_pos (by omega)] at h
        by_cases hlast : k + 1 < 64
        · have hfit : 2 ^ (k + 1) < 2 ^ 64 := Nat.pow_lt_pow_right (by omega) hlast
          rw [Nat.shiftLeft_eq, Nat.pow_one, ← Nat.pow_succ, Nat.mod_eq_of_lt hfit] at h
          exact ih (k + 1) hlast h
        · obtain rfl : k = 63 := by omega
          exact orderOfLoop_zero (by omega) _ _ _ h
  exact key fuel 0 (by omega)

section

variable {s : BuddyAreas} {F : Nat → List Nat} {live : List Span} {a n : Nat}

/-- The free pages are those the free blocks cover. -/
theorem BuddyAreas.Inv.free_iff (h : BuddyAreas.Inv s F live a n) (q : Nat) :
    BuddyFree ⟨s, live⟩ a n q ↔ ∃ k p, (k < maxOrder ∧ p ∈ F k) ∧ q ∈ dyadic p k := by
  constructor
  · rintro ⟨hq, hlive⟩
    obtain ⟨b, hb, hqb⟩ := h.shape.tiles.exists_mem hq
    rcases List.mem_append.mp hb with hfree | hl
    · obtain ⟨k, hk, p, hp, rfl⟩ := mem_freeBlocks.mp hfree
      exact ⟨k, p, ⟨hk, hp⟩, hqb⟩
    · obtain ⟨f, hf, rfl⟩ := List.mem_map.mp hl
      exact absurd hqb (hlive f hf)
  · rintro ⟨k, p, ⟨hk, hp⟩, hq⟩
    have hblock : dyadic p k ∈ freeBlocks F := mem_freeBlocks.mpr ⟨k, hk, p, hp, rfl⟩
    refine ⟨h.shape.tiles.subset (List.mem_append_left _ hblock) hq, fun f hf hqf => ?_⟩
    have hdis := (List.pairwise_append.mp h.shape.tiles.pairwise_disjoint).2.2 _ hblock
      (roundUp f) (List.mem_map_of_mem hf)
    exact hdis q hq hqf

/-- Each block on a list is aligned to its size, which is at most the largest one. -/
theorem BuddyAreas.Inv.orders (h : BuddyAreas.Inv s F live a n) (k p : Nat)
    (hB : k < maxOrder ∧ p ∈ F k) : k ≤ maxOrder - 1 ∧ 2 ^ k ∣ p :=
  ⟨by omega, h.shape.aligned k hB.1 p hB.2⟩

/-- No block below the largest order has its buddy on the list of its order. -/
theorem noBuddies_of_lt (hN : NoBuddies F) (k p : Nat) (hk : k < maxOrder - 1)
    (hB : k < maxOrder ∧ p ∈ F k) : ¬ (k < maxOrder ∧ p ^^^ 2 ^ k ∈ F k) :=
  fun hb => hN k (by omega) p hB.2 hb.2

/-- Two free blocks that share a page are the same. -/
theorem BuddyAreas.Inv.disjoint (h : BuddyAreas.Inv s F live a n) (k p j r q : Nat)
    (hB : k < maxOrder ∧ p ∈ F k) (hB' : j < maxOrder ∧ r ∈ F j) (hq : q ∈ dyadic p k)
    (hq' : q ∈ dyadic r j) : k = j ∧ p = r := by
  by_contra hne
  obtain ⟨hk, hp⟩ := hB
  obtain ⟨hj, hr⟩ := hB'
  have hblock : dyadic p k ∈ freeBlocks F := mem_freeBlocks.mpr ⟨k, hk, p, hp, rfl⟩
  have hblock' : dyadic r j ∈ freeBlocks F := mem_freeBlocks.mpr ⟨j, hj, r, hr, rfl⟩
  obtain ⟨hdis, -, -⟩ := List.pairwise_append.mp h.shape.tiles.pairwise_disjoint
  have hblocks : dyadic p k ≠ dyadic r j := by
    intro heq
    simp only [Span.mk.injEq] at heq
    exact hne ⟨Nat.pow_right_injective (Nat.le_refl 2) heq.2, heq.1⟩
  have hsymm : Std.Symm Span.Disjoint := ⟨fun _ _ h => h.symm⟩
  exact hdis.forall hblock hblock' hblocks q hq hq'

/-- Without two free buddies, the blocks on the lists are the coalesced ones. -/
theorem BuddyAreas.Inv.coalesced (h : BuddyAreas.Inv s F live a n) (hN : NoBuddies F) :
    Coalesced ⟨s, live⟩ a n F where
  freeList := fun k hk => (h.shape.rings.ring k hk).seg.walk
  property := fun k hk p hp => h.shape.property k hk p hp
  nodup := fun k hk => by
    have hnd := (List.nodup_cons.mp (h.shape.rings.ring k hk).nodup).2
    exact hnd.of_map _
  noBuddies := hN
  blocks := block_iff_maxBlock h.orders h.free_iff (noBuddies_of_lt hN) h.disjoint

/-- What `buddy_alloc_pages` answers, by the free pages alone. -/
theorem BuddyAreas.Inv.alloc_iff (h : BuddyAreas.Inv s F live a n) (hN : NoBuddies F)
    {k fuel order : Nat} {r : Option Nat × BuddyAreas} (hk : 0 < k)
    (hord : orderOf fuel k = .ok order) (hok : buddyAllocPages fuel s k = .ok r) :
    r.1 = none ↔ maxOrder ≤ order ∨
      ¬ ∃ p, 2 ^ order ∣ p ∧ ∀ q ∈ dyadic p order, BuddyFree ⟨s, live⟩ a n q := by
  rw [buddyAllocPages_eq hk hord] at hok
  -- The search finds a list unless all lists from `order` on are empty.
  have hsearch : findArea s.links (maxOrder - order) order = none ↔
      ∀ j, order ≤ j → j < maxOrder → F j = [] := by
    rw [findArea_none]
    constructor
    · intro hall j hj hlt
      have hnil := (listEmpty_iff (h.shape.rings.ring j hlt)).mp (hall j hj (by omega))
      simpa [buddyNodes] using hnil
    · intro hall j hj hlt
      have hlt' : j < maxOrder := by omega
      apply (listEmpty_iff (h.shape.rings.ring j hlt')).mpr
      simp [buddyNodes, hall j hj hlt']
  have hexists : (¬ ∀ j, order ≤ j → j < maxOrder → F j = []) ↔
      ∃ j p, (j < maxOrder ∧ p ∈ F j) ∧ order ≤ j := by
    constructor
    · intro hne
      simp only [not_forall] at hne
      obtain ⟨j, hj, hlt, hF⟩ := hne
      obtain ⟨p, hp⟩ := List.exists_mem_of_ne_nil _ hF
      exact ⟨j, p, ⟨hlt, hp⟩, hj⟩
    · rintro ⟨j, p, ⟨hlt, hp⟩, hj⟩ hall
      rw [hall j hj hlt] at hp
      cases hp
  have hnone : r.1 = none ↔ findArea s.links (maxOrder - order) order = none := by
    cases hfind : findArea s.links (maxOrder - order) order with
    | none =>
        rw [hfind] at hok
        cases hok
        simp
    | some j =>
        rw [hfind, Option.elim_some] at hok
        obtain ⟨hle, hlt, hempty, -⟩ := findArea_some hfind
        obtain ⟨p, zs, -, hnext⟩ := h.shape.first (by omega) hempty
        rw [takeBlock, hnext] at hok
        cases hok
        simp
  rw [hnone, hsearch]
  by_cases horder : maxOrder ≤ order
  · simp only [horder, true_or, iff_true]
    intro j hj hlt
    omega
  · simp only [horder, false_or]
    rw [← not_iff_not, not_not, hexists]
    exact exists_order_iff h.orders h.free_iff (noBuddies_of_lt hN) (by omega)

/-- A request that `order_of` can read gets an answer. -/
theorem BuddyAreas.Inv.alloc_returns (h : BuddyAreas.Inv s F live a n) {k fuel : Nat} (hk : 0 < k)
    (hk63 : k ≤ 2 ^ 63) (hf : 64 ≤ fuel) :
    ∃ r, orderOf fuel k = .ok (Nat.clog 2 k) ∧ buddyAllocPages fuel s k = .ok r := by
  obtain ⟨order, hord⟩ := orderOf_returns hk63 (by omega) (show 63 < fuel by omega)
  obtain rfl := orderOf_eq hk hord
  have heq := buddyAllocPages_eq (s := s) hk hord
  cases hfind : findArea s.links (maxOrder - Nat.clog 2 k) (Nat.clog 2 k) with
  | none =>
      rw [hfind, Option.elim_none] at heq
      exact ⟨(none, s), hord, heq⟩
  | some j =>
      obtain ⟨hle, hlt, hempty, -⟩ := findArea_some hfind
      obtain ⟨p, zs, -, hnext⟩ := h.shape.first (by omega) hempty
      rw [hfind, Option.elim_some, takeBlock, hnext] at heq
      exact ⟨_, hord, heq⟩

/-- `buddy_free_pages` of a live block returns. -/
theorem BuddyAreas.Inv.free_returns (h : BuddyAreas.Inv s F live a n) {b : Span} (hb : b ∈ live)
    {fuel : Nat} (hf : 64 ≤ fuel) :
    buddyFreePages fuel s b.start b.len = .ok (freeBlock s b.start (Nat.clog 2 b.len)) := by
  obtain ⟨hpos, hsmall, -⟩ := h.live b hb
  have hmax : maxOrder = 15 := rfl
  have hround : b.len ≤ 2 ^ Nat.clog 2 b.len := Nat.le_pow_clog (by omega) _
  obtain ⟨fuel, rfl⟩ : ∃ d, fuel = d + 2 := ⟨fuel - 2, by omega⟩
  obtain ⟨order, hord⟩ := orderOf_returns hround (by omega)
    (show Nat.clog 2 b.len < fuel + 2 by omega)
  obtain ⟨order', hord'⟩ := orderOf_returns hround (by omega)
    (show Nat.clog 2 b.len < fuel + 1 by omega)
  have hok : ∃ s', buddyFreePages (fuel + 2) s b.start b.len = .ok s' := by
    obtain rfl := orderOf_eq hpos hord'
    unfold buddyFreePages
    rw [if_neg (by omega), hord]
    -- one block holds all of the allocation, so the loop ends at its second test
    simp only [bind, Except.bind, buddyFreeLoop, if_pos hpos, Nat.sub_zero, hord', Nat.add_zero,
      alignOrder_eq (h.live b hb).2.2, Nat.zero_add, Nat.one_shiftLeft,
      if_neg (Nat.not_lt.mpr hround)]
    exact ⟨_, rfl⟩
  obtain ⟨s', hok⟩ := hok
  rw [hok, buddyFreePages_eq hpos (h.live b hb).2.2 hok]

end

/-- All live blocks can be freed, in any order. -/
theorem buddy_free_all {a n : Nat} : ∀ {bs : List Span} {t : PmmSys BuddyAreas} {F : Nat → List Nat},
    bs.Perm t.live → BuddyAreas.Inv t.mgr F t.live a n →
    ∃ u, buddyPmmManager.execAll 64 t (bs.map .free) = .ok u ∧ u.live = [] := by
  intro bs
  induction bs with
  | nil =>
      intro t F hperm _
      exact ⟨t, rfl, hperm.nil_eq.symm⟩
  | cons b bs ih =>
      intro t F hperm h
      have hb : b ∈ t.live := hperm.subset List.mem_cons_self
      have hexec : buddyPmmManager.exec 64 t (.free b) =
          .ok ⟨freeBlock t.mgr b.start (Nat.clog 2 b.len), t.live.erase b⟩ := by
        have hfree := h.free_returns hb (Nat.le_refl 64)
        show (do
          let mgr ← buddyFreePages 64 t.mgr b.start b.len
          return (⟨mgr, t.live.erase b⟩ : PmmSys BuddyAreas)) = _
        rw [hfree]
        rfl
      obtain ⟨F', h', -⟩ := buddy_exec_inv h (show PmmManager.Legal t (.free b) from hb) hexec
      have hrest : bs.Perm (t.live.erase b) :=
        (List.perm_cons b).mp (hperm.trans (List.perm_cons_erase hb))
      obtain ⟨u, hu, hlive⟩ := ih hrest h'
      refine ⟨u, ?_, hlive⟩
      unfold PmmManager.execAll at hu ⊢
      rw [List.map_cons, List.foldlM_cons, if_pos (show PmmManager.Legal t (.free b) from hb), hexec]
      exact hu

/-- After every run the free lists have the dyadic blocks of free pages that cannot grow. Two runs
that end with the same free pages end with the same blocks. Each live block can be freed, and when
all are, in any order, the blocks are those of the start. A request of at most half the range of
`size_t` fails exactly when no aligned run of free pages of its rounded length exists. A larger one
never returns. -/
theorem buddy_canonical_of_run {a n : Nat} {s₀ : BuddyAreas} {s t : PmmSys BuddyAreas}
    (hclear : PropertyClear s₀ a n) (hin : a + n ≤ s₀.npage)
    (hs : buddyPmmManager.Start s₀ a n s)
    (h : buddyPmmManager.Run PmmManager.Always s t) :
    ∃ F, Coalesced t a n F ∧
      (∀ (s₀' : BuddyAreas) (s' t' : PmmSys BuddyAreas), PropertyClear s₀' a n →
        a + n ≤ s₀'.npage → buddyPmmManager.Start s₀' a n s' →
        buddyPmmManager.Run PmmManager.Always s' t' →
        (∀ p, BuddyFree t a n p ↔ BuddyFree t' a n p) →
          ∃ F', Coalesced t' a n F' ∧ ∀ k < maxOrder, (F k).Perm (F' k)) ∧
      (∀ b ∈ t.live, ∃ mgr, ∀ fuel, 64 ≤ fuel →
        buddyFreePages fuel t.mgr b.start b.len = .ok mgr) ∧
      (∀ bs : List Span, bs.Perm t.live → ∃ u F₁ F₀,
        buddyPmmManager.execAll 64 t (bs.map .free) = .ok u ∧ u.live = [] ∧
        Coalesced u a n F₁ ∧ Coalesced s a n F₀ ∧ ∀ k < maxOrder, (F₁ k).Perm (F₀ k)) ∧
      ∀ k, 0 < k →
        (k ≤ 2 ^ 63 ↔ ∃ r, ∀ fuel, 64 ≤ fuel → orderOf fuel k = .ok (Nat.clog 2 k) ∧
          buddyAllocPages fuel t.mgr k = .ok r ∧
          (r.1 = none ↔ maxOrder ≤ Nat.clog 2 k ∨
            ¬ ∃ p, 2 ^ Nat.clog 2 k ∣ p ∧ ∀ q ∈ dyadic p (Nat.clog 2 k), BuddyFree t a n q)) ∧
        ∀ fuel r, buddyAllocPages fuel t.mgr k = .ok r → k ≤ 2 ^ 63 := by
  obtain ⟨F, hF, hN⟩ := buddy_inv_of_run hclear hin hs h
  have hcan := hF.coalesced hN
  -- the lists of two runs have the same heads when the free pages are the same
  have hsame : ∀ {s₁ s₂ : BuddyAreas} {s₁' s₂' t₁ t₂ : PmmSys BuddyAreas},
      PropertyClear s₁ a n → a + n ≤ s₁.npage → buddyPmmManager.Start s₁ a n s₁' →
      buddyPmmManager.Run PmmManager.Always s₁' t₁ →
      PropertyClear s₂ a n → a + n ≤ s₂.npage → buddyPmmManager.Start s₂ a n s₂' →
      buddyPmmManager.Run PmmManager.Always s₂' t₂ →
      (∀ p, BuddyFree t₁ a n p ↔ BuddyFree t₂ a n p) → ∀ F₁, Coalesced t₁ a n F₁ →
        ∃ F₂, Coalesced t₂ a n F₂ ∧ ∀ k < maxOrder, (F₁ k).Perm (F₂ k) := by
    intro s₁ s₂ s₁' s₂' t₁ t₂ _ _ _ _ hclear' hin' hs' h' hfree F₁ hcan₁
    obtain ⟨F₂, hF₂, hN₂⟩ := buddy_inv_of_run hclear' hin' hs' h'
    have hcan₂ := hF₂.coalesced hN₂
    refine ⟨F₂, hcan₂, fun k hk => ?_⟩
    rw [List.perm_ext_iff_of_nodup (hcan₁.nodup k hk) (hcan₂.nodup k hk)]
    intro p
    have hset : BuddyFree t₁ a n = BuddyFree t₂ a n := funext fun p => propext (hfree p)
    have hmem := hcan₁.blocks k p
    rw [hset, ← hcan₂.blocks k p] at hmem
    simpa [hk] using hmem
  refine ⟨F, hcan, fun s₀' s' t' hclear' hin' hs' h' hfree => ?_, fun b hb => ?_,
    fun bs hbs => ?_, fun k hk => ⟨⟨fun hk63 => ?_, fun hret => ?_⟩, fun fuel r hok => ?_⟩⟩
  · exact hsame hclear hin hs h hclear' hin' hs' h' hfree F hcan
  · exact ⟨_, fun fuel hf => hF.free_returns hb hf⟩
  · obtain ⟨u, hu, hlive⟩ := buddy_free_all hbs hF
    have hrun := h.trans (buddyPmmManager.run_of_execAll hu)
    obtain ⟨F₁, hF₁, hN₁⟩ := buddy_inv_of_run hclear hin hs hrun
    have hcan₁ := hF₁.coalesced hN₁
    -- the start has no live block either
    have hfree : ∀ p, BuddyFree u a n p ↔ BuddyFree s a n p := by
      obtain ⟨fuel, mgr, -, rfl⟩ := hs
      intro p
      unfold BuddyFree
      rw [hlive]
    obtain ⟨F₀, hcan₀, hperm⟩ := hsame hclear hin hs hrun hclear hin hs .refl hfree F₁ hcan₁
    exact ⟨u, F₁, F₀, hu, hlive, hcan₁, hcan₀, hperm⟩
  · obtain ⟨r, -, hok⟩ := hF.alloc_returns hk hk63 (Nat.le_refl 64)
    refine ⟨r, fun fuel hf => ?_⟩
    obtain ⟨r', hord', hok'⟩ := hF.alloc_returns hk hk63 hf
    -- the answer does not depend on the fuel
    obtain ⟨-, hord, -⟩ := hF.alloc_returns hk hk63 (Nat.le_refl 64)
    obtain rfl : r = r' := by
      rw [buddyAllocPages_eq hk hord] at hok
      rw [buddyAllocPages_eq hk hord'] at hok'
      exact Except.ok.inj (hok.symm.trans hok')
    exact ⟨hord', hok', hF.alloc_iff hN hk hord' hok'⟩
  · obtain ⟨r, hret⟩ := hret
    by_contra hlarge
    exact orderOf_never (Nat.not_le.mp hlarge) 64 _ (hret 64 (Nat.le_refl 64)).1
  · by_contra hlarge
    unfold buddyAllocPages at hok
    rw [if_neg (by omega)] at hok
    obtain ⟨order, hord, -⟩ := Halt.bind_eq_ok.mp hok
    exact orderOf_never (Nat.not_le.mp hlarge) fuel order hord

/-- Three requests, which split the blocks of four pages and of two. -/
def splitCalls : List PmmOp := [.alloc 3, .alloc 1, .alloc 2]

/-- The blocks that are taken, in an order in which they are not adjacent. -/
def restoreOrder : List Span := [⟨1, 1⟩, ⟨4, 3⟩, ⟨2, 2⟩]

/-- The calls `splitCalls` on a region of seven pages, and whether they take the whole of it. -/
def splitAndRestoreCheck : Except Halt Bool := do
  let mgr ← buddyInitMemmap 10 (buddyInit reservedAreas) 1 7
  let t ← buddyPmmManager.execAll 64 ⟨mgr, []⟩ splitCalls
  return t.live == [⟨2, 2⟩, ⟨1, 1⟩, ⟨4, 3⟩]

/-- They do. -/
theorem splitAndRestoreCheck_eq : splitAndRestoreCheck = .ok true := by decide +kernel

/-- Everything is taken, a request for one more page fails, and each block is freed. Then the blocks
of the start are on the lists again. -/
theorem buddy_split_and_restore :
    ∃ s t u, buddyPmmManager.Start reservedAreas 1 7 s ∧
      buddyPmmManager.execAll 64 s [.alloc 3, .alloc 1, .alloc 2] = .ok t ∧
      buddyPmmManager.Run PmmManager.Always s t ∧ t.live = [⟨2, 2⟩, ⟨1, 1⟩, ⟨4, 3⟩] ∧
      (∃ r, buddyAllocPages 64 t.mgr 1 = .ok r ∧ r.1 = none) ∧
      buddyPmmManager.execAll 64 t [.free ⟨1, 1⟩, .free ⟨4, 3⟩, .free ⟨2, 2⟩] = .ok u ∧
      u.live = [] ∧
      ∃ F₁ F₀, Coalesced u 1 7 F₁ ∧ Coalesced s 1 7 F₀ ∧ ∀ k < maxOrder, (F₁ k).Perm (F₀ k) := by
  have hcheck := splitAndRestoreCheck_eq
  unfold splitAndRestoreCheck at hcheck
  obtain ⟨mgr, hinit, hcheck⟩ := Halt.bind_eq_ok.mp hcheck
  obtain ⟨t, ht, hcheck⟩ := Halt.bind_eq_ok.mp hcheck
  have hlive : t.live = [⟨2, 2⟩, ⟨1, 1⟩, ⟨4, 3⟩] := by
    have heq := Except.ok.inj hcheck
    rwa [beq_iff_eq] at heq
  have hs : buddyPmmManager.Start reservedAreas 1 7 ⟨mgr, []⟩ := ⟨10, mgr, hinit, rfl⟩
  have hrun := buddyPmmManager.run_of_execAll ht
  obtain ⟨-, -, -, -, hfree, halloc⟩ :=
    buddy_canonical_of_run (fun _ _ _ => rfl) (by decide) hs hrun
  have hperm : restoreOrder.Perm t.live := by
    rw [hlive]
    decide
  obtain ⟨u, F₁, F₀, hu, hnone, hF₁, hF₀, hblocks⟩ := hfree restoreOrder hperm
  obtain ⟨r, hr⟩ := (halloc 1 (by decide)).1.mp (by decide)
  obtain ⟨-, hok, hiff⟩ := hr 64 (Nat.le_refl 64)
  refine ⟨_, t, u, hs, ht, hrun, hlive, ⟨r, hok, hiff.mpr (Or.inr ?_)⟩, hu, hnone, F₁, F₀, hF₁, hF₀,
    hblocks⟩
  -- every page is in a live block
  rintro ⟨p, -, hall⟩
  have hround : Nat.clog 2 2 = 1 ∧ Nat.clog 2 1 = 0 ∧ Nat.clog 2 3 = 2 := by decide
  obtain ⟨hp, hlives⟩ := hall p (by simp [Span.mem_iff, dyadic, hround])
  rw [hlive] at hlives
  have h₁ := hlives ⟨2, 2⟩ (by simp)
  have h₂ := hlives ⟨1, 1⟩ (by simp)
  have h₃ := hlives ⟨4, 3⟩ (by simp)
  simp only [roundUp, hround, Span.mem_iff] at h₁ h₂ h₃ hp
  omega

/-- A request for one page more than half the range of `size_t` has an order above the largest one,
and never returns. -/
theorem buddy_large_request :
    ∃ s, buddyPmmManager.Start reservedAreas 1 7 s ∧ maxOrder ≤ Nat.clog 2 (2 ^ 63 + 1) ∧
      2 ^ 63 + 1 < 2 ^ 64 ∧ ∀ fuel r, buddyAllocPages fuel s.mgr (2 ^ 63 + 1) ≠ .ok r := by
  have hinit : ∃ mgr, buddyInitMemmap 10 (buddyInit reservedAreas) 1 7 = .ok mgr := by
    obtain ⟨mgr, hinit, -⟩ := Halt.bind_eq_ok.mp splitAndRestoreCheck_eq
    exact ⟨mgr, hinit⟩
  obtain ⟨mgr, hinit⟩ := hinit
  refine ⟨⟨mgr, []⟩, ⟨10, mgr, hinit, rfl⟩, ?_, by decide, fun fuel r hok => ?_⟩
  · exact Nat.le_of_lt ((Nat.lt_clog_iff_pow_lt (by omega)).mpr (by decide))
  · unfold buddyAllocPages at hok
    rw [if_neg (by omega)] at hok
    obtain ⟨order, hord, -⟩ := Halt.bind_eq_ok.mp hok
    exact orderOf_never (by omega) fuel order hord

end Ucore.Proofs.Mm
