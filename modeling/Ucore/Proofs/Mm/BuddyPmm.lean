import Mathlib
import Ucore.Lib.Dyadic
import Ucore.Mm.BuddyPmm

/-!
# `Ucore.Proofs.Mm.BuddyPmm`: the buddy system

`BuddyAreas.Shape s F rest hand a n` is the state of the manager between any two statements of its
loops: `F k` lists the heads of the free blocks of order `k`, and the free blocks tile the region
together with the spans `rest`, which are the live blocks and the block a call has in its hands.
`hand` names the one descriptor whose `PG_property` says nothing yet.

The loops only ever push a block (`pushBlock_shape`), drop one (`dropBlock_shape`), cut the block in
hand in half (`splitLoop_shape`) or join it with its buddy (`mergeLoop_shape`). A client's span
counts with its rounded length (`roundUp`), and a live block of `n` pages starts at a multiple of
the rounded length, so the walk of `buddy_free_pages` frees it in one piece (`buddyFreePages_inv`).

## Orders

`order_of` returns the least order that holds `n` pages, for every `n` up to `2 ^ 63`
(`orderOf_eq`). A larger `n` shifts `sz` out of its 64 bits, and the loop never ends
(`orderOfLoop_zero`).

## No buddies are left

`NoBuddies` is the second invariant: no two free blocks of an order below the largest are buddies. A
split makes none, since of each pair of halves only the upper one is freed. The merge loop ends when
the buddy of the block in hand is not free, so that pushing it makes none either. The fill loop of
`buddy_init_memmap` takes the largest aligned block that fits, and two such blocks in a row are no
halves of a larger one (`Greedy`).

`buddy_exec_inv` keeps both over one call and `buddy_inv_of_run` over a run.
`buddy_consistent_of_run` reads the bookkeeping off the invariant.
-/

set_option autoImplicit false

namespace Ucore.Proofs.Mm

open Ucore.Lib
open Ucore.Libs
open Ucore.Mm

/-! ### Free blocks by order -/

/-- The list nodes of the free blocks, order by order. -/
abbrev buddyNodes (F : Nat → List Nat) (k : Nat) : List BuddyNode := (F k).map .page

/-- The free blocks of all orders. -/
def freeBlocks (F : Nat → List Nat) : List Span :=
  (List.range maxOrder).flatMap fun k => (F k).map fun p => ⟨p, 2 ^ k⟩

/-- A free block is the block of a page on one of the lists. -/
theorem mem_freeBlocks {F : Nat → List Nat} {b : Span} :
    b ∈ freeBlocks F ↔ ∃ k < maxOrder, ∃ p ∈ F k, b = ⟨p, 2 ^ k⟩ := by
  simp only [freeBlocks, List.mem_flatMap, List.mem_range, List.mem_map, eq_comm]

/-- One element more at one place of a concatenation. -/
theorem flatMap_perm_cons {ι α : Type} {f g : ι → List α} {k : ι} {b : α}
    (hne : ∀ j, j ≠ k → f j = g j) (hp : (f k).Perm (b :: g k)) :
    ∀ ks : List ι, ks.Nodup → k ∈ ks → (ks.flatMap f).Perm (b :: ks.flatMap g) := by
  intro ks
  induction ks with
  | nil => intro _ hk; cases hk
  | cons j ks ih =>
      intro hnd hk
      obtain ⟨hj, hnd⟩ := List.nodup_cons.mp hnd
      rw [List.flatMap_cons, List.flatMap_cons]
      by_cases hjk : j = k
      · subst hjk
        have hrest : ks.flatMap f = ks.flatMap g := by
          have hcongr : ∀ i ∈ ks, f i = g i := fun i hi => hne i fun hij => hj (hij ▸ hi)
          rw [List.flatMap_def, List.flatMap_def, List.map_congr_left hcongr]
        rw [hrest]
        exact hp.append_right _
      · have hmem : k ∈ ks := (List.mem_cons.mp hk).resolve_left (Ne.symm hjk)
        rw [hne j hjk]
        exact ((ih hnd hmem).append_left (g j)).trans List.perm_middle

/-- A page comes to the front of a list. -/
theorem freeBlocks_push {F : Nat → List Nat} {k : Nat} (hk : k < maxOrder) (p : Nat) :
    (freeBlocks (Function.update F k (p :: F k))).Perm (⟨p, 2 ^ k⟩ :: freeBlocks F) := by
  apply flatMap_perm_cons (k := k) _ _ _ List.nodup_range (List.mem_range.mpr hk)
  · intro j hj
    rw [Function.update_of_ne hj]
  · rw [Function.update_self, List.map_cons]

/-- A page leaves its list. -/
theorem freeBlocks_drop {F : Nat → List Nat} {k p : Nat} {ys zs : List Nat} (hk : k < maxOrder)
    (hF : F k = ys ++ p :: zs) :
    (freeBlocks F).Perm (⟨p, 2 ^ k⟩ :: freeBlocks (Function.update F k (ys ++ zs))) := by
  apply flatMap_perm_cons (k := k) _ _ _ List.nodup_range (List.mem_range.mpr hk)
  · intro j hj
    rw [Function.update_of_ne hj]
  · rw [Function.update_self, hF, List.map_append, List.map_cons, List.map_append]
    exact List.perm_middle

/-- The pages on the lists behind a push. -/
theorem exists_mem_push {F : Nat → List Nat} {k p q : Nat} (hk : k < maxOrder) :
    (∃ j < maxOrder, q ∈ Function.update F k (p :: F k) j) ↔
      q = p ∨ ∃ j < maxOrder, q ∈ F j := by
  constructor
  · rintro ⟨j, hj, hq⟩
    by_cases hjk : j = k
    · rw [hjk, Function.update_self, List.mem_cons] at hq
      exact hq.imp id fun hq => ⟨k, hk, hq⟩
    · rw [Function.update_of_ne hjk] at hq
      exact Or.inr ⟨j, hj, hq⟩
  · rintro (rfl | ⟨j, hj, hq⟩)
    · exact ⟨k, hk, by rw [Function.update_self]; exact List.mem_cons_self⟩
    · refine ⟨j, hj, ?_⟩
      by_cases hjk : j = k
      · rw [hjk, Function.update_self]
        exact List.mem_cons_of_mem _ (hjk ▸ hq)
      · rw [Function.update_of_ne hjk]
        exact hq

/-- The list nodes after a change of one order. -/
theorem buddyNodes_update (F : Nat → List Nat) (k : Nat) (xs : List Nat) :
    buddyNodes (Function.update F k xs) =
      Function.update (buddyNodes F) k (xs.map .page) := by
  funext j
  by_cases hjk : j = k
  · subst hjk
    simp [buddyNodes]
  · simp [buddyNodes, hjk]

/-- A page is on a list when its node is in the ring. -/
theorem page_mem_nodes {F : Nat → List Nat} {j p : Nat} :
    (.page p : BuddyNode) ∈ .head j :: buddyNodes F j ↔ p ∈ F j := by
  simp

/-! ### Buddies -/

/-- No two free blocks of one order below the largest are buddies. -/
def NoBuddies (F : Nat → List Nat) : Prop :=
  ∀ k, k + 1 < maxOrder → ∀ p ∈ F k, p ^^^ 2 ^ k ∉ F k

/-- With fewer blocks on the lists there are still no buddies. -/
theorem NoBuddies.mono {F G : Nat → List Nat} (h : NoBuddies F) (hsub : ∀ k, ∀ p ∈ G k, p ∈ F k) :
    NoBuddies G := fun k hk p hp hb => h k hk p (hsub k p hp) (hsub k _ hb)

/-- A block whose buddy is not free joins its list. -/
theorem NoBuddies.push {F : Nat → List Nat} {k p : Nat} (h : NoBuddies F)
    (hp : k + 1 < maxOrder → p ^^^ 2 ^ k ∉ F k) :
    NoBuddies (Function.update F k (p :: F k)) := by
  intro j hj q hq hbuddy
  by_cases hjk : j = k
  · subst hjk
    rw [Function.update_self] at hq hbuddy
    rcases List.mem_cons.mp hq with rfl | hq
    · rcases List.mem_cons.mp hbuddy with heq | hmem
      · exact xor_two_pow_ne q j heq
      · exact hp hj hmem
    · rcases List.mem_cons.mp hbuddy with heq | hmem
      · apply hp hj
        rw [← heq, Nat.xor_assoc, Nat.xor_self, Nat.xor_zero]
        exact hq
      · exact h j hj q hq hmem
  · rw [Function.update_of_ne hjk] at hq hbuddy
    exact h j hj q hq hbuddy

/-- A block that leaves its list leaves no buddies behind. -/
theorem NoBuddies.drop {F : Nat → List Nat} {k p : Nat} {ys zs : List Nat} (h : NoBuddies F)
    (hF : F k = ys ++ p :: zs) : NoBuddies (Function.update F k (ys ++ zs)) := by
  apply h.mono
  intro j q hq
  by_cases hjk : j = k
  · subst hjk
    rw [Function.update_self] at hq
    rw [hF]
    simp only [List.mem_append, List.mem_cons] at hq ⊢
    tauto
  · rwa [Function.update_of_ne hjk] at hq

/-! ### The invariant of the loops -/

/-- The shape of the manager's state with the blocks `F` on its lists. -/
structure BuddyAreas.Shape (s : BuddyAreas) (F : Nat → List Nat) (rest : List Span)
    (hand : Option Nat) (a n : Nat) : Prop where
  rings : s.links.Rings (· < maxOrder) .head (buddyNodes F)
  tiles : Tiles (freeBlocks F ++ rest) a n
  aligned : ∀ k < maxOrder, ∀ p ∈ F k, 2 ^ k ∣ p
  property : ∀ k < maxOrder, ∀ p ∈ F k, (s.pages p).property = 2 ^ k
  flag : ∀ p < s.npage, hand ≠ some p →
    ((s.pages p).flags.property = true ↔ ∃ k < maxOrder, p ∈ F k)
  nrFree : ∀ k < maxOrder, s.nrFree k = 2 ^ k * (F k).length
  inside : a + n ≤ s.npage

namespace BuddyAreas.Shape

variable {s : BuddyAreas} {F : Nat → List Nat} {rest : List Span} {hand : Option Nat}
  {a n p k : Nat}

/-- A page of a span that is not free heads no free block. -/
theorem notMem (h : Shape s F rest hand a n) {b : Span} (hb : b ∈ rest) (hp : p ∈ b) :
    ∀ j < maxOrder, p ∉ F j := by
  intro j hj hpj
  have hblock : (⟨p, 2 ^ j⟩ : Span) ∈ freeBlocks F := mem_freeBlocks.mpr ⟨j, hj, p, hpj, rfl⟩
  have hdis := (List.pairwise_append.mp h.tiles.pairwise_disjoint).2.2 _ hblock b hb
  have hpos : 0 < 2 ^ j := Nat.two_pow_pos j
  exact hdis p (by simp only [Span.mem_iff]; omega) hp

/-- The order of a free block is determined by its head. -/
theorem order_unique (h : Shape s F rest hand a n) {j : Nat} (hj : j < maxOrder)
    (hk : k < maxOrder) (hpj : p ∈ F j) (hpk : p ∈ F k) : j = k := by
  by_contra hne
  exact h.rings.apart j k hj hk hne (.page p) (page_mem_nodes.mpr hpj) (page_mem_nodes.mpr hpk)

/-- A free block starts in the region. -/
theorem mem_region (h : Shape s F rest hand a n) (hk : k < maxOrder) (hp : p ∈ F k) :
    p ∈ (⟨a, n⟩ : Span) := by
  have hblock : (⟨p, 2 ^ k⟩ : Span) ∈ freeBlocks F ++ rest :=
    List.mem_append_left rest (mem_freeBlocks.mpr ⟨k, hk, p, hp, rfl⟩)
  have hpos : 0 < 2 ^ k := Nat.two_pow_pos k
  exact h.tiles.subset hblock (by simp only [Span.mem_iff]; omega)

/-- A page on a list has a descriptor. -/
theorem lt_npage (h : Shape s F rest hand a n) (hk : k < maxOrder) (hp : p ∈ F k) :
    p < s.npage := by
  have hin := h.mem_region hk hp
  have hle := h.inside
  simp only [Span.mem_iff] at hin
  omega

/-- Only the cells of the spans that are not free count. -/
theorem retile (h : Shape s F rest hand a n) {rest' : List Span}
    (hcov : ∀ q, cover rest' q = cover rest q) : Shape s F rest' hand a n := by
  refine { h with tiles := fun q => ?_ }
  rw [← h.tiles q, cover_append, cover_append, hcov q]

end BuddyAreas.Shape

/-- The length of a block fits an `unsigned int`. -/
theorem two_pow_lt_uint {k : Nat} (hk : k < maxOrder) : uint (1 <<< k) = 2 ^ k := by
  have hle : 2 ^ k ≤ 2 ^ 15 := Nat.pow_le_pow_right (by omega) (Nat.le_of_lt hk)
  rw [Nat.one_shiftLeft]
  exact uint_of_lt (by omega)

/-- The block in hand goes onto the list of its order. -/
theorem pushBlock_shape {s : BuddyAreas} {F : Nat → List Nat} {rest : List Span}
    {hand : Option Nat} {a n p k : Nat}
    (h : BuddyAreas.Shape s F (⟨p, 2 ^ k⟩ :: rest) hand a n) (hk : k < maxOrder)
    (hp : 2 ^ k ∣ p) (hhand : ∀ q, hand = some q → q = p) :
    BuddyAreas.Shape (pushBlock s p k) (Function.update F k (p :: F k)) rest none a n := by
  have hpin : p ∈ (⟨p, 2 ^ k⟩ : Span) := by
    have hpos : 0 < 2 ^ k := Nat.two_pow_pos k
    simp only [Span.mem_iff]
    omega
  have hfresh := h.notMem List.mem_cons_self hpin
  -- A statement about all blocks of the new lists is one about `p` and the old blocks.
  have hall : ∀ P : Nat → Nat → Prop, P k p → (∀ j < maxOrder, ∀ q ∈ F j, P j q) →
      ∀ j < maxOrder, ∀ q ∈ Function.update F k (p :: F k) j, P j q := by
    intro P hkp hold j hj q hq
    by_cases hjk : j = k
    · subst hjk
      rw [Function.update_self, List.mem_cons] at hq
      rcases hq with rfl | hq
      · exact hkp
      · exact hold j hj q hq
    · rw [Function.update_of_ne hjk] at hq
      exact hold j hj q hq
  constructor
  case rings =>
    rw [buddyNodes_update, List.map_cons]
    apply h.rings.insert_head hk
    intro j hj
    rw [page_mem_nodes]
    exact hfresh j hj
  case tiles =>
    have hperm := (freeBlocks_push (F := F) hk p).append_right rest
    exact h.tiles.perm (List.perm_middle.trans hperm.symm)
  case aligned => exact hall (fun j q => 2 ^ j ∣ q) hp h.aligned
  case property =>
    apply hall
    · simp [pushBlock, Pages.setProperty_property, two_pow_lt_uint hk]
    · intro j hj q hq
      have hqp : q ≠ p := fun hqp => hfresh j hj (hqp ▸ hq)
      simp only [pushBlock, Pages.setPageProperty_property, Pages.setProperty_property,
        if_neg hqp]
      exact h.property j hj q hq
  case flag =>
    intro q hq _
    rw [exists_mem_push hk]
    simp only [pushBlock, Pages.setPageProperty_flag, Pages.setProperty_flags]
    by_cases hqp : q = p
    · simp [hqp]
    · rw [h.flag q hq (fun he => hqp (hhand q he))]
  case nrFree =>
    intro j hj
    show Function.update s.nrFree k (s.nrFree k + 1 <<< k) j = _
    by_cases hjk : j = k
    · subst hjk
      rw [Function.update_self, Function.update_self, List.length_cons, Nat.one_shiftLeft,
        h.nrFree j hj]
      ring
    · rw [Function.update_of_ne hjk, Function.update_of_ne hjk]
      exact h.nrFree j hj
  case inside => exact h.inside

/-- A free block leaves its list and is then in the hands of the call. -/
theorem dropBlock_shape {s : BuddyAreas} {F : Nat → List Nat} {rest : List Span}
    {hand : Option Nat} {a n p k : Nat} {ys zs : List Nat}
    (h : BuddyAreas.Shape s F rest hand a n) (hk : k < maxOrder) (hF : F k = ys ++ p :: zs) :
    BuddyAreas.Shape (dropBlock s p k) (Function.update F k (ys ++ zs)) (⟨p, 2 ^ k⟩ :: rest)
      hand a n := by
  have hnodes : buddyNodes F k = ys.map .page ++ .page p :: zs.map .page := by
    simp [buddyNodes, hF]
  have hsub : ∀ j, ∀ q ∈ Function.update F k (ys ++ zs) j, q ∈ F j := by
    intro j q hq
    by_cases hjk : j = k
    · subst hjk
      rw [Function.update_self] at hq
      rw [hF]
      simp only [List.mem_append, List.mem_cons] at hq ⊢
      tauto
    · rwa [Function.update_of_ne hjk] at hq
  have htiles : Tiles (freeBlocks (Function.update F k (ys ++ zs)) ++ ⟨p, 2 ^ k⟩ :: rest) a n :=
    h.tiles.perm (((freeBlocks_drop hk hF).append_right rest).trans List.perm_middle.symm)
  have hrings : (dropBlock s p k).links.Rings (· < maxOrder) .head
      (buddyNodes (Function.update F k (ys ++ zs))) := by
    rw [buddyNodes_update, List.map_append]
    exact h.rings.unlink hk hnodes
  constructor
  case rings => exact hrings
  case tiles => exact htiles
  case aligned => exact fun j hj q hq => h.aligned j hj q (hsub j q hq)
  case property =>
    intro j hj q hq
    simp only [dropBlock, Pages.clearPageProperty_property]
    exact h.property j hj q (hsub j q hq)
  case flag =>
    intro q hq hh
    have hold := h.flag q hq hh
    simp only [dropBlock, Pages.clearPageProperty_flag, hold]
    constructor
    · rintro ⟨hqp, j, hj, hqj⟩
      refine ⟨j, hj, ?_⟩
      by_cases hjk : j = k
      · subst hjk
        rw [Function.update_self]
        rw [hF] at hqj
        simp only [List.mem_append, List.mem_cons] at hqj ⊢
        tauto
      · rwa [Function.update_of_ne hjk]
    · rintro ⟨j, hj, hqj⟩
      refine ⟨?_, j, hj, hsub j q hqj⟩
      rintro rfl
      -- The head that went heads no other block.
      have hjk := h.order_unique hj hk (hsub j q hqj) (by rw [hF]; simp)
      subst hjk
      rw [Function.update_self] at hqj
      have hnd := (List.nodup_cons.mp (h.rings.ring j hj).nodup).2
      rw [hnodes] at hnd
      have hout := (List.nodup_cons.mp (List.perm_middle.nodup_iff.mp hnd)).1
      apply hout
      rw [← List.map_append]
      exact List.mem_map_of_mem hqj
  case nrFree =>
    intro j hj
    show Function.update s.nrFree k (s.nrFree k - 1 <<< k) j = _
    by_cases hjk : j = k
    · subst hjk
      rw [Function.update_self, Function.update_self, Nat.one_shiftLeft, h.nrFree j hj, hF]
      simp only [List.length_append, List.length_cons]
      rw [← Nat.add_assoc, Nat.mul_succ, Nat.add_sub_cancel]
    · rw [Function.update_of_ne hjk, Function.update_of_ne hjk]
      exact h.nrFree j hj
  case inside => exact h.inside

/-! ### The order of a request -/

/-- With `sz` overflown to zero the loop of `order_of` never ends. -/
theorem orderOfLoop_zero {n : Nat} (hn : 0 < n) :
    ∀ (fuel k r : Nat), orderOfLoop n fuel 0 k ≠ .ok r := by
  intro fuel
  induction fuel with
  | zero => intro k r h; cases h
  | succ fuel ih =>
      intro k r h
      rw [orderOfLoop, if_pos hn] at h
      exact ih _ _ h

/-- The loop of `order_of` ends with the least order whose blocks are long enough. -/
theorem orderOfLoop_eq {n : Nat} (hn : 0 < n) :
    ∀ (fuel k r : Nat), k < 64 → (∀ j < k, 2 ^ j < n) →
      orderOfLoop n fuel (2 ^ k) k = .ok r → r = Nat.clog 2 n := by
  intro fuel
  induction fuel with
  | zero => intro k r _ _ h; cases h
  | succ fuel ih =>
      intro k r hk hlt h
      rw [orderOfLoop] at h
      split at h
      · rename_i hkn
        by_cases hlast : k + 1 < 64
        · have hfit : 2 ^ (k + 1) < 2 ^ 64 := Nat.pow_lt_pow_right (by omega) hlast
          rw [Nat.shiftLeft_eq, Nat.pow_one, ← Nat.pow_succ, Nat.mod_eq_of_lt hfit] at h
          apply ih (k + 1) r hlast _ h
          intro j hj
          rcases Nat.lt_succ_iff_lt_or_eq.mp hj with hj | rfl
          · exact hlt j hj
          · exact hkn
        · have hk63 : k = 63 := by omega
          subst hk63
          exact absurd h (orderOfLoop_zero hn _ _ _)
      · rename_i hkn
        have hr : r = k := by injection h with h; exact h.symm
        rw [hr]
        apply Nat.le_antisymm
        · cases k with
          | zero => exact Nat.zero_le _
          | succ k => exact Nat.succ_le_of_lt ((Nat.lt_clog_iff_pow_lt (by omega)).mpr (hlt k (by omega)))
        · exact (Nat.clog_le_iff_le_pow (by omega)).mpr (by omega)

/-- `order_of` returns the least order whose blocks hold `n` pages. -/
theorem orderOf_eq {fuel n k : Nat} (hn : 0 < n) (h : orderOf fuel n = .ok k) :
    k = Nat.clog 2 n :=
  orderOfLoop_eq hn fuel 0 k (by omega) (fun _ hj => absurd hj (by omega)) h

/-! ### Allocation -/

/-- The search finds the first list that is not empty. -/
theorem findArea_some {l : Links BuddyNode} :
    ∀ {d j r : Nat}, findArea l d j = some r →
      j ≤ r ∧ r < j + d ∧ listEmpty l (.head r) = false ∧
        ∀ i, j ≤ i → i < r → listEmpty l (.head i) = true := by
  intro d
  induction d with
  | zero => intro j r h; cases h
  | succ d ih =>
      intro j r h
      rw [findArea] at h
      split at h
      · rename_i he
        cases h
        exact ⟨Nat.le_refl _, by omega, by simpa using he, fun i h1 h2 => by omega⟩
      · rename_i he
        obtain ⟨h1, h2, h3, h4⟩ := ih h
        refine ⟨by omega, by omega, h3, fun i hji hir => ?_⟩
        rcases Nat.eq_or_lt_of_le hji with heq | hlt
        · subst heq
          simpa using he
        · exact h4 i hlt hir

/-- The split keeps the lower half of the block in hand and frees the upper halves. -/
theorem splitLoop_shape {p k : Nat} {rest : List Span} {a n : Nat} :
    ∀ (j : Nat) (s : BuddyAreas) (F : Nat → List Nat), k ≤ j → j < maxOrder → 2 ^ j ∣ p →
      BuddyAreas.Shape s F (⟨p, 2 ^ j⟩ :: rest) none a n →
      ∃ F', BuddyAreas.Shape (splitLoop p k j s) F' (⟨p, 2 ^ k⟩ :: rest) none a n ∧
        (NoBuddies F → (∀ i, k ≤ i → i < j → F i = []) → NoBuddies F') := by
  intro j
  induction j with
  | zero =>
      intro s F hkj _ _ h
      have hk : k = 0 := by omega
      subst hk
      exact ⟨F, h, fun hF _ => hF⟩
  | succ j ih =>
      intro s F hkj hj hp h
      rw [splitLoop, Nat.one_shiftLeft]
      by_cases hlt : k < j + 1
      · rw [if_pos hlt]
        -- The block is its two halves, and the upper one is the block in hand of the push.
        have hcut : BuddyAreas.Shape s F (⟨p + 2 ^ j, 2 ^ j⟩ :: ⟨p, 2 ^ j⟩ :: rest) none a n := by
          apply h.retile
          intro q
          have hsplit := cover_split p (2 ^ j) (2 ^ j) q
          have hdouble : 2 ^ j + 2 ^ j = 2 ^ (j + 1) := by rw [Nat.pow_succ]; omega
          rw [hdouble] at hsplit
          rw [cover_cons_eq_add, cover_cons_eq_add ⟨p, 2 ^ j⟩,
            cover_cons_eq_add ⟨p, 2 ^ (j + 1)⟩]
          omega
        have hdvd : 2 ^ j ∣ p := two_pow_dvd_of_le hp (Nat.le_succ j)
        have hhalf : 2 ^ j ∣ p + 2 ^ j := Nat.dvd_add hdvd (Nat.dvd_refl _)
        have hpush := pushBlock_shape hcut (by omega) hhalf (by simp)
        obtain ⟨F', hshape, hmerged⟩ := ih _ _ (by omega) (by omega) hdvd hpush
        refine ⟨F', hshape, fun hF hempty => hmerged (hF.push fun _ => ?_) ?_⟩
        · rw [hempty j (by omega) (by omega)]
          exact List.not_mem_nil
        · intro i hki hij
          rw [Function.update_of_ne (by omega)]
          exact hempty i hki (by omega)
      · have hk : k = j + 1 := by omega
        subst hk
        rw [if_neg hlt]
        exact ⟨F, h, fun hF _ => hF⟩

/-- The block a list that is not empty starts with. -/
theorem BuddyAreas.Shape.first {s : BuddyAreas} {F : Nat → List Nat} {rest : List Span}
    {hand : Option Nat} {a n j : Nat} (h : BuddyAreas.Shape s F rest hand a n)
    (hj : j < maxOrder) (he : listEmpty s.links (.head j) = false) :
    ∃ p zs, F j = p :: zs ∧ s.links.next (.head j) = .page p := by
  have hring := h.rings.ring j hj
  have hnext := hring.next_head
  cases hF : F j with
  | nil =>
      have hnil : buddyNodes F j = [] := by simp [buddyNodes, hF]
      rw [(listEmpty_iff hring).mpr hnil] at he
      cases he
  | cons p zs =>
      refine ⟨p, zs, rfl, ?_⟩
      rw [hnext, buddyNodes, hF]
      rfl

/-! ### Release -/

/-- At an aligned index the walk to a smaller order ends at once. -/
theorem alignOrder_eq {gidx k : Nat} (h : 2 ^ k ∣ gidx) : alignOrder gidx k = k := by
  cases k with
  | zero => rfl
  | succ k =>
      rw [alignOrder, Nat.one_shiftLeft, Nat.and_two_pow_sub_one_eq_mod,
        Nat.mod_eq_zero_of_dvd h]
      exact if_neg (fun hne => hne rfl)

/-- A block and its buddy are the halves of a block of the next order. -/
theorem buddies_join {blk pk : Nat} (hblk : 2 ^ pk ∣ blk) :
    ∃ low, low = (if blk ^^^ 2 ^ pk < blk then blk ^^^ 2 ^ pk else blk) ∧ 2 ^ (pk + 1) ∣ low ∧
      ((low = blk ∧ blk ^^^ 2 ^ pk = blk + 2 ^ pk) ∨
        (low = blk ^^^ 2 ^ pk ∧ blk = (blk ^^^ 2 ^ pk) + 2 ^ pk)) := by
  have hpos : 0 < 2 ^ pk := Nat.two_pow_pos pk
  rcases xor_two_pow hblk with ⟨hd, he⟩ | ⟨hd, he⟩
  · exact ⟨blk, by rw [if_neg (by omega)], hd, Or.inl ⟨rfl, he⟩⟩
  · exact ⟨blk ^^^ 2 ^ pk, by rw [if_pos (by omega)], hd, Or.inr ⟨rfl, he⟩⟩

/-- A head with `PG_property` and the length of the order is on the list of this order. -/
theorem mem_of_flag {s : BuddyAreas} {F : Nat → List Nat} {rest : List Span} {a n blk p pk : Nat}
    (h : BuddyAreas.Shape s F rest (some blk) a n) (hp : p < s.npage) (hne : p ≠ blk)
    (hflag : (s.pages p).flags.property = true) (hprop : (s.pages p).property = 2 ^ pk) :
    pk < maxOrder ∧ p ∈ F pk := by
  obtain ⟨j, hj, hmem⟩ := (h.flag p hp (by simpa using hne.symm)).mp hflag
  have hlen := h.property j hj p hmem
  rw [hprop] at hlen
  obtain rfl := (Nat.pow_right_injective (Nat.le_refl 2) hlen).symm
  exact ⟨hj, hmem⟩

/-- One round of the merge loop: the buddy leaves its list, and the two halves are in hand. -/
theorem mergeStep_shape {s : BuddyAreas} {F : Nat → List Nat} {rest : List Span}
    {a n blk buddy low pk : Nat} {ys zs : List Nat}
    (h : BuddyAreas.Shape s F (⟨blk, 2 ^ pk⟩ :: rest) (some blk) a n) (hpk : pk < maxOrder)
    (hF : F pk = ys ++ buddy :: zs)
    (hjoin : (low = blk ∧ buddy = blk + 2 ^ pk) ∨ (low = buddy ∧ blk = buddy + 2 ^ pk)) :
    BuddyAreas.Shape
      { dropBlock s buddy pk with
          pages := (dropBlock s buddy pk).pages.clearPageProperty blk }
      (Function.update F pk (ys ++ zs)) (⟨low, 2 ^ (pk + 1)⟩ :: rest) (some low) a n := by
  have hjoined : BuddyAreas.Shape (dropBlock s buddy pk) (Function.update F pk (ys ++ zs))
      (⟨low, 2 ^ (pk + 1)⟩ :: rest) (some blk) a n := by
    apply (dropBlock_shape h hpk hF).retile
    intro q
    have hdouble : 2 ^ pk + 2 ^ pk = 2 ^ (pk + 1) := by rw [Nat.pow_succ]; omega
    have hsplit := cover_split low (2 ^ pk) (2 ^ pk) q
    rw [hdouble] at hsplit
    rw [cover_cons_eq_add, cover_cons_eq_add ⟨buddy, 2 ^ pk⟩, cover_cons_eq_add ⟨blk, 2 ^ pk⟩]
    rcases hjoin with ⟨rfl, rfl⟩ | ⟨rfl, rfl⟩
    · omega
    · omega
  refine { hjoined with property := ?_, flag := ?_ }
  · intro i hi q hq
    simp only [Pages.clearPageProperty_property]
    exact hjoined.property i hi q hq
  · intro q hq hh
    simp only [Pages.clearPageProperty_flag]
    by_cases hqb : q = blk
    · -- The old head, when it is the upper half: no block starts there any more.
      subst hqb
      have hin : q ∈ (⟨low, 2 ^ (pk + 1)⟩ : Span) := by
        have hpos : 0 < 2 ^ pk := Nat.two_pow_pos pk
        simp only [Span.mem_iff, Nat.pow_succ]
        rcases hjoin with ⟨rfl, -⟩ | ⟨rfl, hq2⟩ <;> omega
      have hnot := hjoined.notMem List.mem_cons_self hin
      constructor
      · intro hc
        exact absurd rfl hc.1
      · rintro ⟨i, hi, hqi⟩
        exact absurd hqi (hnot i hi)
    · rw [hjoined.flag q hq (by simpa using Ne.symm hqb)]
      exact and_iff_right hqb

/-- The merge loop joins the block in hand with its buddies as long as they are free. -/
theorem mergeLoop_shape {rest : List Span} {a n : Nat} :
    ∀ (d : Nat) (s : BuddyAreas) (F : Nat → List Nat) (blk pk : Nat), pk + d < maxOrder →
      2 ^ pk ∣ blk → BuddyAreas.Shape s F (⟨blk, 2 ^ pk⟩ :: rest) (some blk) a n →
      ∃ F' s' blk' pk', mergeLoop d s blk pk = (s', blk', pk') ∧ pk' < maxOrder ∧
        2 ^ pk' ∣ blk' ∧
        BuddyAreas.Shape s' F' (⟨blk', 2 ^ pk'⟩ :: rest) (some blk') a n ∧
        (NoBuddies F → NoBuddies F') ∧
        (pk + d + 1 = maxOrder → pk' + 1 < maxOrder → blk' ^^^ 2 ^ pk' ∉ F' pk') := by
  intro d
  induction d with
  | zero =>
      intro s F blk pk hd hblk h
      exact ⟨F, s, blk, pk, rfl, by omega, hblk, h, id, fun _ _ => by omega⟩
  | succ d ih =>
      intro s F blk pk hd hblk h
      -- The loop ends here when the buddy is not on the list of this order.
      have hstop : blk ^^^ 2 ^ pk ∉ F pk → ∃ F' s' blk' pk', (s, blk, pk) = (s', blk', pk') ∧
          pk' < maxOrder ∧ 2 ^ pk' ∣ blk' ∧
          BuddyAreas.Shape s' F' (⟨blk', 2 ^ pk'⟩ :: rest) (some blk') a n ∧
          (NoBuddies F → NoBuddies F') ∧
          (pk + (d + 1) + 1 = maxOrder → pk' + 1 < maxOrder → blk' ^^^ 2 ^ pk' ∉ F' pk') :=
        fun hout => ⟨F, s, blk, pk, rfl, by omega, hblk, h, id, fun _ _ => hout⟩
      obtain ⟨low, hlow, hdvd, hjoin⟩ := buddies_join hblk
      have hne : blk ^^^ 2 ^ pk ≠ blk := xor_two_pow_ne blk pk
      rw [mergeLoop, buddyOf, Nat.one_shiftLeft]
      by_cases hnp : s.npage ≤ blk ^^^ 2 ^ pk
      · simp only [if_pos hnp]
        exact hstop fun hmem => by
          have hlt := h.lt_npage (by omega) hmem
          omega
      · simp only [if_neg hnp]
        generalize blk ^^^ 2 ^ pk = buddy at *
        split
        · rename_i hbusy
          refine hstop fun hmem => ?_
          have hflag := (h.flag buddy (by omega) (by simpa using hne.symm)).mpr
            ⟨pk, by omega, hmem⟩
          have hlen := h.property pk (by omega) buddy hmem
          rw [hflag, hlen] at hbusy
          simp at hbusy
        · rename_i hfree
          simp only [Bool.or_eq_true, Bool.not_eq_true', decide_eq_true_eq, ne_eq, not_or,
            Bool.not_eq_false, not_not] at hfree
          obtain ⟨hpk, hmem⟩ := mem_of_flag h (by omega) hne hfree.1 hfree.2
          obtain ⟨ys, zs, hF⟩ := List.append_of_mem hmem
          rw [← hlow]
          obtain ⟨F', s', blk', pk', hm, hpk', hdvd', hshape, hmerged, hlast⟩ :=
            ih _ (Function.update F pk (ys ++ zs)) _ _ (by omega) hdvd
              (mergeStep_shape h hpk hF hjoin)
          exact ⟨F', s', blk', pk', hm, hpk', hdvd', hshape, fun hN => hmerged (hN.drop hF),
            fun htop => hlast (by omega)⟩

/-- The block in hand of `freeBlock`, before the merge loop. -/
theorem markBlock_shape {s : BuddyAreas} {F : Nat → List Nat} {rest : List Span} {a n p k : Nat}
    (h : BuddyAreas.Shape s F (⟨p, 2 ^ k⟩ :: rest) none a n) :
    BuddyAreas.Shape
      { s with pages := (s.pages.setProperty p (1 <<< k)).setPageProperty p } F
      (⟨p, 2 ^ k⟩ :: rest) (some p) a n := by
  have hpin : p ∈ (⟨p, 2 ^ k⟩ : Span) := by
    have hpos : 0 < 2 ^ k := Nat.two_pow_pos k
    simp only [Span.mem_iff]
    omega
  have hfresh := h.notMem List.mem_cons_self hpin
  refine { h with property := ?_, flag := ?_ }
  · intro j hj q hq
    have hqp : q ≠ p := fun hqp => hfresh j hj (hqp ▸ hq)
    simp only [Pages.setPageProperty_property, Pages.setProperty_property, if_neg hqp]
    exact h.property j hj q hq
  · intro q hq hh
    have hqp : q ≠ p := fun hqp => hh (by rw [hqp])
    simp only [Pages.setPageProperty_flag, Pages.setProperty_flags, hqp, false_or]
    exact h.flag q hq (by simp)

/-- Freeing one block of order `k` that is in hand. -/
theorem freeBlock_shape {s : BuddyAreas} {F : Nat → List Nat} {rest : List Span}
    {a n p k : Nat} (h : BuddyAreas.Shape s F (⟨p, 2 ^ k⟩ :: rest) none a n)
    (hk : k < maxOrder) (hp : 2 ^ k ∣ p) :
    ∃ F', BuddyAreas.Shape (freeBlock s p k) F' rest none a n ∧
      (NoBuddies F → NoBuddies F') := by
  obtain ⟨F', s', blk', pk', hm, hpk, hdvd, hshape, hmerged, hlast⟩ :=
    mergeLoop_shape (maxOrder - 1 - k) _ F p k (by omega) hp (markBlock_shape h)
  have hpush := pushBlock_shape hshape hpk hdvd (by intro q hq; simpa using hq.symm)
  have heq : freeBlock s p k = pushBlock s' blk' pk' := by simp only [freeBlock, hm]
  exact ⟨_, heq ▸ hpush, fun hN => (hmerged hN).push (hlast (by omega))⟩

/-! ### Initialisation -/

/-- `buddy_init` empties every list. -/
theorem buddyInitLoop_spec (s : BuddyAreas) :
    ∀ i, (buddyInitLoop i s).links.Rings (· < i) .head (fun _ => []) ∧
      (∀ k < i, (buddyInitLoop i s).nrFree k = 0) ∧
      (buddyInitLoop i s).pages = s.pages ∧ (buddyInitLoop i s).npage = s.npage := by
  intro i
  induction i with
  | zero =>
      exact ⟨⟨fun k hk => absurd hk (Nat.not_lt_zero k), fun k _ hk => absurd hk (Nat.not_lt_zero k)⟩,
        fun k hk => absurd hk (Nat.not_lt_zero k), rfl, rfl⟩
  | succ i ih =>
      obtain ⟨hr, hn, hp, hnp⟩ := ih
      refine ⟨⟨?_, ?_⟩, ?_, hp, hnp⟩
      · intro k hk
        by_cases hki : k = i
        · subst hki
          exact Links.ring_init _ _
        · exact (hr.ring k (by omega)).frame_init (by simpa using Ne.symm hki)
      · intro j k _ _ hjk x hx
        rw [List.mem_singleton] at hx ⊢
        rw [hx]
        simpa using hjk
      · intro k hk
        show Function.update _ i 0 k = 0
        by_cases hki : k = i
        · rw [hki, Function.update_self]
        · rw [Function.update_of_ne hki]
          exact hn k (by omega)

/-- The first loop of `buddy_init_memmap` clears the flags of its pages and no others. -/
theorem buddyClearLoop_ok : ∀ (n p : Nat) (pages pages' : Pages),
    buddyClearLoop n p pages = .ok pages' →
      ∀ q, (pages' q).flags = if q ∈ (⟨p, n⟩ : Span) then .zero else (pages q).flags := by
  intro n
  induction n with
  | zero =>
      intro p pages pages' h q
      cases h
      rw [if_neg]
      simp only [Span.mem_iff]
      omega
  | succ n ih =>
      intro p pages pages' h q
      rw [buddyClearLoop] at h
      split at h
      · rw [ih _ _ _ h q, Pages.setProperty_flags, Pages.setPageRef_flags, Pages.setFlags_flags]
        simp only [Span.mem_iff]
        by_cases hq : q = p
        · subst hq
          rw [if_neg (by omega), if_pos rfl, if_pos (by omega)]
        · rw [if_neg hq]
          have hiff : (p + 1 ≤ q ∧ q < p + 1 + n) ↔ (p ≤ q ∧ q < p + (n + 1)) := by omega
          simp only [hiff]
      · cases h

/-- The order the fill loop picks: aligned at the place and inside the region. -/
theorem maxFitLoop_spec {g i n : Nat} : ∀ (d k : Nat), 2 ^ k ∣ g → i + 2 ^ k ≤ n →
    2 ^ maxFitLoop g i n d k ∣ g ∧ i + 2 ^ maxFitLoop g i n d k ≤ n ∧
      maxFitLoop g i n d k ≤ k + d ∧
      (maxFitLoop g i n d k < k + d → ¬ (2 ^ (maxFitLoop g i n d k + 1) ∣ g ∧
        i + 2 ^ (maxFitLoop g i n d k + 1) ≤ n)) := by
  intro d
  induction d with
  | zero => intro k hg hi; exact ⟨hg, hi, Nat.le_refl _, fun hlt => absurd hlt (Nat.lt_irrefl k)⟩
  | succ d ih =>
      intro k hg hi
      have htwice : 1 <<< k <<< 1 = 2 ^ (k + 1) := by
        rw [Nat.one_shiftLeft, Nat.shiftLeft_eq, Nat.pow_one, ← Nat.pow_succ]
      rw [maxFitLoop, htwice]
      split
      · rename_i hfit
        obtain ⟨h1, h2, h3, h4⟩ := ih (k + 1) (Nat.dvd_of_mod_eq_zero hfit.1) hfit.2
        exact ⟨h1, h2, by omega, fun hlt => h4 (by omega)⟩
      · rename_i hfit
        exact ⟨hg, hi, by omega, fun _ hno => hfit ⟨Nat.mod_eq_zero_of_dvd hno.1, hno.2⟩⟩

/-- No block on the lists could have been larger where it starts. -/
def Greedy (F : Nat → List Nat) (a n : Nat) : Prop :=
  ∀ k, k + 1 < maxOrder → ∀ p ∈ F k, 2 ^ (k + 1) ∣ p → a + n < p + 2 ^ (k + 1)

/-- A block that cannot grow to the right within the region. -/
theorem Greedy.push {F : Nat → List Nat} {a n k p : Nat} (h : Greedy F a n)
    (hp : k + 1 < maxOrder → 2 ^ (k + 1) ∣ p → a + n < p + 2 ^ (k + 1)) :
    Greedy (Function.update F k (p :: F k)) a n := by
  intro j hj q hq hd
  by_cases hjk : j = k
  · subst hjk
    rw [Function.update_self] at hq
    rcases List.mem_cons.mp hq with rfl | hq
    · exact hp hj hd
    · exact h j hj q hq hd
  · rw [Function.update_of_ne hjk] at hq
    exact h j hj q hq hd

/-- The fill loop puts the region on the lists, block by block from its start. -/
theorem buddyFillLoop_shape {a n : Nat} :
    ∀ (fuel i : Nat) (s s' : BuddyAreas) (F : Nat → List Nat), i ≤ n → a + n ≤ s.npage →
      BuddyAreas.Shape s F [] none a i → NoBuddies F → Greedy F a n →
      buddyFillLoop a n fuel i s = .ok s' →
      ∃ F', BuddyAreas.Shape s' F' [] none a n ∧ NoBuddies F' := by
  intro fuel
  induction fuel with
  | zero => intro i s s' F _ _ _ _ _ h; cases h
  | succ fuel ih =>
      intro i s s' F hin hnp h hN hG hok
      rw [buddyFillLoop] at hok
      by_cases hlt : i < n
      · rw [if_pos hlt] at hok
        obtain ⟨hdvd, hfit, hle, hgreedy⟩ := maxFitLoop_spec (g := a + i) (i := i) (n := n)
          (maxOrder - 1) 0 (by simp) (by omega)
        generalize maxFitLoop (a + i) i n (maxOrder - 1) 0 = k at hok hdvd hfit hle hgreedy
        have hk : k < maxOrder := by
          have hmax : maxOrder = 15 := rfl
          omega
        have hgrow : BuddyAreas.Shape s F [⟨a + i, 2 ^ k⟩] none a (i + 2 ^ k) := by
          refine { h with tiles := ?_, inside := by omega }
          intro q
          have hold := h.tiles q
          have hsplit := cover_split a i (2 ^ k) q
          have hnone : cover [⟨a, i⟩] q = if q ∈ (⟨a, i⟩ : Span) then 1 else 0 := by
            simp [cover_cons]
          have hall : cover [⟨a, i + 2 ^ k⟩] q =
              if q ∈ (⟨a, i + 2 ^ k⟩ : Span) then 1 else 0 := by
            simp [cover_cons]
          rw [List.append_nil] at hold
          rw [cover_append, hold, ← hall, ← hnone, hsplit]
        have hpush := pushBlock_shape hgrow hk hdvd (by simp)
        have hnext : buddyFillLoop a n fuel (i + 2 ^ k) (pushBlock s (a + i) k) = .ok s' := by
          simpa only [Nat.one_shiftLeft] using hok
        have hgreedy' : k + 1 < maxOrder → 2 ^ (k + 1) ∣ a + i → a + n < a + i + 2 ^ (k + 1) := by
          intro htop hd
          by_contra hle'
          exact hgreedy (by unfold maxOrder at htop ⊢; omega) ⟨hd, by omega⟩
        refine ih _ (pushBlock s (a + i) k) _ _ hfit hnp hpush (hN.push fun htop hmem => ?_)
          (hG.push hgreedy') hnext
        -- The buddy would be the lower half, and that place took the larger order then.
        have hin' := h.mem_region (by omega) hmem
        simp only [Span.mem_iff] at hin'
        rcases xor_two_pow hdvd with ⟨-, he⟩ | ⟨hd, he⟩
        · omega
        · have hbig := hG k htop _ hmem hd
          rw [Nat.pow_succ] at hbig
          omega
      · rw [if_neg hlt] at hok
        cases hok
        have hi : i = n := by omega
        exact ⟨F, hi ▸ h, hN⟩

/-! ### Runs -/

/-- The length a request for `n` pages is served with: the least power of two. -/
def roundUp (b : Span) : Span := ⟨b.start, 2 ^ Nat.clog 2 b.len⟩

/-- The invariant of the buddy manager. -/
structure BuddyAreas.Inv (s : BuddyAreas) (F : Nat → List Nat) (live : List Span) (a n : Nat) :
    Prop where
  shape : BuddyAreas.Shape s F (live.map roundUp) none a n
  /-- A live block has one of the fifteen orders and is aligned to its rounded length. -/
  live : ∀ b ∈ live, 0 < b.len ∧ Nat.clog 2 b.len < maxOrder ∧ 2 ^ Nat.clog 2 b.len ∣ b.start

/-- `buddy_alloc_pages` fails and changes nothing, or it gives a block and keeps the invariant. It
makes no buddies. -/
theorem buddyAllocPages_inv {s s' : BuddyAreas} {F : Nat → List Nat} {live : List Span}
    {a n k fuel : Nat} {r : Option Nat} (h : BuddyAreas.Inv s F live a n)
    (hok : buddyAllocPages fuel s k = .ok (r, s')) :
    (r = none ∧ s' = s) ∨
      ∃ p F', r = some p ∧ BuddyAreas.Inv s' F' (⟨p, k⟩ :: live) a n ∧
        (NoBuddies F → NoBuddies F') := by
  unfold buddyAllocPages at hok
  by_cases hk0 : k = 0
  · rw [if_pos hk0] at hok
    cases hok
  · rw [if_neg hk0] at hok
    obtain ⟨order, hord, hok⟩ := Halt.bind_eq_ok.mp hok
    have hclog := orderOf_eq (by omega) hord
    -- The smallest list that has a block of the order or a larger one.
    cases hfind : findArea s.links (maxOrder - order) order with
    | none =>
        rw [hfind] at hok
        cases hok
        exact Or.inl ⟨rfl, rfl⟩
    | some j =>
        rw [hfind] at hok
        obtain ⟨hle, hlt, hempty, hbelow⟩ := findArea_some hfind
        have hj : j < maxOrder := by omega
        obtain ⟨p, zs, hF, hnext⟩ := h.shape.first hj hempty
        have hp : 2 ^ j ∣ p := h.shape.aligned j hj p (by rw [hF]; exact List.mem_cons_self)
        have hF' : F j = [] ++ p :: zs := hF
        have hdrop := dropBlock_shape h.shape hj hF'
        obtain ⟨F', hsplit, hmerged⟩ := splitLoop_shape j _ _ hle hj hp hdrop
        -- The split leaves one block in each list below, and those lists were empty.
        have hmerged' : NoBuddies F → NoBuddies F' := by
          intro hN
          refine hmerged (hN.drop hF') fun i hi hij => ?_
          rw [Function.update_of_ne (by omega)]
          have hnil := (listEmpty_iff (h.shape.rings.ring i (show i < maxOrder by omega))).mp
            (hbelow i hi hij)
          simpa [buddyNodes] using hnil
        have htake : takeBlock s j order = .ok (r, s') := hok
        rw [takeBlock, hnext] at htake
        cases htake
        refine Or.inr ⟨p, F', rfl, ⟨?_, ?_⟩, hmerged'⟩
        · have hround : roundUp ⟨p, k⟩ = ⟨p, 2 ^ order⟩ := by rw [roundUp, hclog]
          rw [List.map_cons, hround]
          refine { hsplit with property := ?_, flag := ?_ }
          · intro i hi q hq
            rw [Pages.setPageRef_property]
            exact hsplit.property i hi q hq
          · intro q hq hh
            rw [Pages.setPageRef_flags]
            exact hsplit.flag q hq hh
        · intro b hb
          rcases List.mem_cons.mp hb with rfl | hb
          · rw [← hclog]
            exact ⟨by show 0 < k; omega, by omega, two_pow_dvd_of_le hp hle⟩
          · exact h.live b hb

/-- One block holds all of an allocation, so `buddy_free_pages` frees one block. -/
theorem buddyFreePages_eq {s s' : BuddyAreas} {fuel : Nat} {b : Span} (hpos : 0 < b.len)
    (hdvd : 2 ^ Nat.clog 2 b.len ∣ b.start)
    (hok : buddyFreePages fuel s b.start b.len = .ok s') :
    s' = freeBlock s b.start (Nat.clog 2 b.len) := by
  unfold buddyFreePages at hok
  rw [if_neg (by omega)] at hok
  obtain ⟨-, -, hok⟩ := Halt.bind_eq_ok.mp hok
  cases fuel with
  | zero => cases hok
  | succ fuel =>
      rw [buddyFreeLoop, if_pos hpos] at hok
      obtain ⟨order, hord, hok⟩ := Halt.bind_eq_ok.mp hok
      have hclog := orderOf_eq (by omega) hord
      rw [Nat.sub_zero] at hclog
      have halign : alignOrder b.start order = Nat.clog 2 b.len := by
        rw [hclog]
        exact alignOrder_eq hdvd
      simp only [Nat.add_zero, halign, Nat.zero_add, Nat.one_shiftLeft] at hok
      -- The loop ends at its next test.
      cases fuel with
      | zero => cases hok
      | succ fuel =>
          have hall : b.len ≤ 2 ^ Nat.clog 2 b.len := Nat.le_pow_clog (by omega) _
          rw [buddyFreeLoop, if_neg (by omega)] at hok
          exact (Except.ok.inj hok).symm

/-- A live block in front of the other spans that are not free. -/
theorem BuddyAreas.Inv.shape_of_mem {s : BuddyAreas} {F : Nat → List Nat} {live : List Span}
    {a n : Nat} {b : Span} (h : BuddyAreas.Inv s F live a n) (hb : b ∈ live) :
    BuddyAreas.Shape s F (roundUp b :: (live.erase b).map roundUp) none a n :=
  h.shape.retile fun q => (cover_perm ((List.perm_cons_erase hb).map roundUp) q).symm

/-- `buddy_free_pages` of a live block keeps the invariant. It leaves no buddies behind. -/
theorem buddyFreePages_inv {s s' : BuddyAreas} {F : Nat → List Nat} {live : List Span}
    {a n fuel : Nat} {b : Span} (h : BuddyAreas.Inv s F live a n) (hb : b ∈ live)
    (hok : buddyFreePages fuel s b.start b.len = .ok s') :
    ∃ F', BuddyAreas.Inv s' F' (live.erase b) a n ∧ (NoBuddies F → NoBuddies F') := by
  obtain ⟨hpos, hsmall, hdvd⟩ := h.live b hb
  obtain ⟨F', hfree, hmerged⟩ := freeBlock_shape (h.shape_of_mem hb) hsmall hdvd
  rw [← buddyFreePages_eq hpos hdvd hok] at hfree
  exact ⟨F', ⟨hfree, fun c hc => h.live c (List.mem_of_mem_erase hc)⟩, hmerged⟩

/-- The bookkeeping of the manager of the `n` pages from `a` on is right, with the heads
`F k` on the list of each order `k`. -/
structure BuddyConsistent (sys : PmmSys BuddyAreas) (a n : Nat) (F : Nat → List Nat) :
    Prop where
  freeList : ∀ k < maxOrder,
    sys.mgr.links.Walk (.head k) ((F k).map FreeNode.page) (.head k)
  aligned : ∀ k < maxOrder, ∀ p ∈ F k, 2 ^ k ∣ p ∧ (sys.mgr.pages p).property = 2 ^ k
  flag : ∀ p < sys.mgr.npage,
    ((sys.mgr.pages p).flags.property = true ↔ ∃ k < maxOrder, p ∈ F k)
  partition : Tiles (freeBlocks F ++ sys.live.map roundUp) a n
  nrFree : buddyNrFreePages sys.mgr = total (freeBlocks F)

/-- The counters add up to the lengths of the free blocks. -/
theorem sum_nrFree {F : Nat → List Nat} {c : Nat → Nat} : ∀ ks : List Nat,
    (∀ k ∈ ks, c k = 2 ^ k * (F k).length) →
      (ks.map c).sum = total (ks.flatMap fun k => (F k).map fun p => (⟨p, 2 ^ k⟩ : Span)) := by
  intro ks
  induction ks with
  | nil => intro _; rfl
  | cons k ks ih =>
      intro h
      have hrest := ih fun j hj => h j (List.mem_cons_of_mem _ hj)
      have hone : total ((F k).map fun p => (⟨p, 2 ^ k⟩ : Span)) = 2 ^ k * (F k).length := by
        simp [total, Function.comp_def, Nat.mul_comm]
      rw [List.map_cons, List.sum_cons, List.flatMap_cons, total_append, hone, hrest,
        h k List.mem_cons_self]

/-- What the invariant says about the lists and the live blocks. -/
theorem BuddyAreas.Inv.consistent {s : BuddyAreas} {F : Nat → List Nat} {live : List Span}
    {a n : Nat} (h : BuddyAreas.Inv s F live a n) : BuddyConsistent ⟨s, live⟩ a n F where
  freeList := fun k hk => (h.shape.rings.ring k hk).seg.walk
  aligned := fun k hk p hp => ⟨h.shape.aligned k hk p hp, h.shape.property k hk p hp⟩
  flag := fun p hp => h.shape.flag p hp (by simp)
  partition := h.shape.tiles
  nrFree := sum_nrFree _ fun k hk => h.shape.nrFree k (List.mem_range.mp hk)

/-- No descriptor of `pages[]` outside the region has `PG_property`: `page_init` leaves
them all with `PG_reserved` alone. -/
def PropertyClear (s : BuddyAreas) (a n : Nat) : Prop :=
  ∀ p < s.npage, p ∉ (⟨a, n⟩ : Span) → (s.pages p).flags.property = false

/-- After `buddy_init` every list is empty. -/
theorem buddyInit_shape {s₀ : BuddyAreas} {pages : Pages} {a : Nat}
    (hclear : ∀ p < s₀.npage, (pages p).flags.property = false) (ha : a ≤ s₀.npage) :
    BuddyAreas.Shape { buddyInit s₀ with pages := pages } (fun _ => []) [] none a 0 := by
  obtain ⟨hr, hnr, hp, hnp⟩ := buddyInitLoop_spec s₀ maxOrder
  constructor
  case rings => exact hr
  case tiles =>
    intro q
    have hnil : freeBlocks (fun _ => []) = [] := by simp [freeBlocks]
    rw [hnil, if_neg]
    · rfl
    · simp only [Span.mem_iff]
      omega
  case aligned => exact fun k _ p hpk => absurd hpk List.not_mem_nil
  case property => exact fun k _ p hpk => absurd hpk List.not_mem_nil
  case flag =>
    intro q hq _
    have hout : (pages q).flags.property = false := hclear q (hnp ▸ hq)
    simp [hout]
  case nrFree =>
    intro k hk
    exact hnr k hk
  case inside =>
    show a + 0 ≤ (buddyInitLoop maxOrder s₀).npage
    omega

/-- The state after `buddy_init` and `buddy_init_memmap`. -/
theorem buddyInitMemmap_inv {fuel a n : Nat} {s₀ s : BuddyAreas} (hclear : PropertyClear s₀ a n)
    (hin : a + n ≤ s₀.npage) (hok : buddyInitMemmap fuel (buddyInit s₀) a n = .ok s) :
    ∃ F, BuddyAreas.Inv s F [] a n ∧ NoBuddies F := by
  unfold buddyInitMemmap at hok
  by_cases hn0 : n = 0
  · rw [if_pos hn0] at hok
    cases hok
  · rw [if_neg hn0] at hok
    obtain ⟨pages, hloop, hok⟩ := Halt.bind_eq_ok.mp hok
    obtain ⟨-, -, hp, hnp⟩ := buddyInitLoop_spec s₀ maxOrder
    have hflags := buddyClearLoop_ok n a _ _ hloop
    have hout : ∀ p < s₀.npage, (pages p).flags.property = false := by
      intro q hq
      rw [hflags q]
      split
      · rfl
      · rename_i hqin
        rw [buddyInit, hp]
        exact hclear q hq hqin
    have hinside : a + n ≤ (buddyInit s₀).npage := by
      rw [buddyInit, hnp]
      exact hin
    obtain ⟨F, hF, hN⟩ := buddyFillLoop_shape fuel 0 { buddyInit s₀ with pages := pages } s _
      (Nat.zero_le n) hinside (buddyInit_shape hout (by omega))
      (fun _ _ _ hp => absurd hp List.not_mem_nil) (fun _ _ _ hp => absurd hp List.not_mem_nil) hok
    exact ⟨F, ⟨hF, fun b hb => absurd hb List.not_mem_nil⟩, hN⟩

/-- One call keeps the invariant. -/
theorem buddy_exec_inv {t u : PmmSys BuddyAreas} {F : Nat → List Nat} {a n fuel : Nat}
    {op : PmmOp} (h : BuddyAreas.Inv t.mgr F t.live a n) (hl : PmmManager.Legal t op)
    (he : buddyPmmManager.exec fuel t op = .ok u) :
    ∃ F', BuddyAreas.Inv u.mgr F' u.live a n ∧ (NoBuddies F → NoBuddies F') := by
  cases op with
  | alloc k =>
      obtain ⟨⟨r, mgr⟩, hok, he⟩ := Halt.bind_eq_ok.mp he
      rcases buddyAllocPages_inv h hok with ⟨rfl, rfl⟩ | ⟨p, F', rfl, hinv, hmerged⟩
      · cases he
        exact ⟨F, h, id⟩
      · cases he
        exact ⟨F', hinv, hmerged⟩
  | free b =>
      obtain ⟨mgr, hok, he⟩ := Halt.bind_eq_ok.mp he
      cases he
      exact buddyFreePages_inv h hl hok

/-- The invariant holds in every run from an initialised region, and no two free blocks
are left unmerged. -/
theorem buddy_inv_of_run {a n : Nat} {s₀ : BuddyAreas} {s t : PmmSys BuddyAreas}
    (hclear : PropertyClear s₀ a n) (hin : a + n ≤ s₀.npage)
    (hs : buddyPmmManager.Start s₀ a n s)
    (h : buddyPmmManager.Run PmmManager.Always s t) :
    ∃ F, BuddyAreas.Inv t.mgr F t.live a n ∧ NoBuddies F := by
  obtain ⟨fuel, mgr, hinit, rfl⟩ := hs
  apply PmmManager.Run.invariant _ h
  · exact buddyInitMemmap_inv hclear hin hinit
  · rintro t u fuel op ⟨F, hF, hN⟩ hl _ he
    obtain ⟨F', hF', hmerged⟩ := buddy_exec_inv hF hl he
    exact ⟨F', hF', hmerged hN⟩

/-- In every run from an initialised region the bookkeeping is right. -/
theorem buddy_consistent_of_run {a n : Nat} {s₀ : BuddyAreas} {s t : PmmSys BuddyAreas}
    (hclear : PropertyClear s₀ a n) (hin : a + n ≤ s₀.npage)
    (hs : buddyPmmManager.Start s₀ a n s)
    (h : buddyPmmManager.Run PmmManager.Always s t) : ∃ F, BuddyConsistent t a n F := by
  obtain ⟨F, hF, -⟩ := buddy_inv_of_run hclear hin hs h
  exact ⟨F, hF.consistent⟩

/-- Eight descriptors, all of them reserved. -/
def reservedAreas : BuddyAreas where
  pages := fun _ => ⟨0, ⟨true, false⟩, 0⟩
  npage := 8
  links := ⟨id, id⟩
  nrFree := fun _ => 0

/-- The calls of `buddy_split_and_merge` and the live blocks after them. -/
def splitAndMergeCheck : Except Halt Bool := do
  let mgr ← buddyInitMemmap 10 (buddyInit reservedAreas) 1 7
  let t ← buddyPmmManager.execAll 10 ⟨mgr, []⟩ [.alloc 3, .alloc 1, .free ⟨4, 3⟩, .alloc 2]
  return t.live == [⟨2, 2⟩, ⟨1, 1⟩]

/-- Seven pages from page one on: a request for three pages takes the block of four, which
is then freed as a whole, and a request for two pages takes the block behind page one. -/
theorem buddy_split_and_merge :
    ∃ s t, buddyPmmManager.Start reservedAreas 1 7 s ∧
      buddyPmmManager.execAll 10 s [.alloc 3, .alloc 1, .free ⟨4, 3⟩, .alloc 2] = .ok t ∧
      buddyPmmManager.Run PmmManager.Always s t ∧ t.live = [⟨2, 2⟩, ⟨1, 1⟩] ∧
      ∃ F, BuddyConsistent t 1 7 F := by
  have hcheck : splitAndMergeCheck = .ok true := by decide +kernel
  unfold splitAndMergeCheck at hcheck
  obtain ⟨mgr, hinit, hcheck⟩ := Halt.bind_eq_ok.mp hcheck
  obtain ⟨t, ht, hcheck⟩ := Halt.bind_eq_ok.mp hcheck
  have hlive : t.live = [⟨2, 2⟩, ⟨1, 1⟩] := by
    have heq := Except.ok.inj hcheck
    rwa [beq_iff_eq] at heq
  have hs : buddyPmmManager.Start reservedAreas 1 7 ⟨mgr, []⟩ := ⟨10, mgr, hinit, rfl⟩
  have hrun := buddyPmmManager.run_of_execAll ht
  exact ⟨_, t, hs, ht, hrun, hlive,
    buddy_consistent_of_run (fun _ _ _ => rfl) (by decide) hs hrun⟩

end Ucore.Proofs.Mm
