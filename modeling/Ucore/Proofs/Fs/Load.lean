import Ucore.Proofs.Fs.Bmap

/-!
# `Ucore.Proofs.Fs.Load`: reaching the blocks of a file

`sfs_bmap_load_nolock` maps the index right behind the last block. `Grown` says what a number
of calls of it have done to the volume, and `needed` counts the free blocks that the calls up
to an index take.

`Stretched` is about the file alone and `Grown` about the volume. Both compose (`Stretched.trans`,
`Grown.trans`), which is what the loops of `sfs_io_nolock` and `sfs_truncfile` use for a step.

* `ends_load`: the block is reached, or the call does not change the file because there are not
  enough free blocks, or it panics because the index is not in the block map.
* `Grown.fits`: the blocks that have been mapped were free before. With `needed_step` this decides,
  from the free blocks in front of a loop, how far the loop comes.
* `Mapping.grown`: `din->blocks` is counted up behind a new index, and not behind an old one.
-/

set_option autoImplicit false

namespace Ucore.Proofs.Fs

open Ucore.Lib Ucore.Fs

variable {I : Finset Nat} {i k n b : Nat} {sfs sfs' sfs'' : Sfs} {sin : SfsInode}
  {u v w : FileView}

/-- Every index below the number of blocks is mapped. -/
def Mapped (v : FileView) : Prop := ∀ k, k < v.din.blocks → v.entry k ≠ 0

/-- The number of free blocks that it takes to map the indices from the number of blocks up
to `n`. -/
def needed (v : FileView) (n : Nat) : Nat :=
  ((Finset.Ico v.din.blocks n).filter fun k => v.entry k = 0).card +
    if v.din.indirect = 0 ∧ 12 < n ∧ v.din.blocks < n then 1 else 0

/-- Some indices behind the last block have been mapped. -/
structure Stretched (v w : FileView) : Prop where
  din : w.din =
    { v.din with
      blocks := w.din.blocks, direct := w.din.direct, indirect := w.din.indirect }
  blocks : v.din.blocks ≤ w.din.blocks
  entry : ∀ k, v.entry k ≠ 0 ∨ k < v.din.blocks ∨ w.din.blocks ≤ k → w.entry k = v.entry k
  disk : w.disk = v.disk
  dirty : v.dirty = true → w.dirty = true
  clean : w.dirty = false → w.din = { v.din with blocks := w.din.blocks }
  grew : w.din.blocks ≠ v.din.blocks →
    w.dirty = true ∨ v.entry v.din.blocks ≠ 0 ∨ (12 ≤ v.din.blocks ∧ v.din.indirect ≠ 0)
  indirect : v.din.indirect ≠ 0 → w.din.indirect = v.din.indirect

/-- Only the bytes of the file have changed. -/
theorem Stretched.of_eq (hdin : w.din = v.din) (hdirty : w.dirty = v.dirty)
    (hdisk : w.disk = v.disk) (hentry : w.entry = v.entry) : Stretched v w where
  din := by rw [hdin]
  blocks := by rw [hdin]
  entry := fun _ _ => by rw [hentry]
  disk := hdisk
  dirty := fun h => hdirty.trans h
  clean := fun _ => by rw [hdin]
  grew := fun h => absurd (by rw [hdin]) h
  indirect := fun _ => by rw [hdin]

/-- Nothing has been done. -/
theorem Stretched.refl (v : FileView) : Stretched v v := .of_eq rfl rfl rfl rfl

/-- One call on a file after another. -/
theorem Stretched.trans (h : Stretched u v) (h' : Stretched v w) : Stretched u w where
  din := by
    rw [h'.din, h.din]
  blocks := le_trans h.blocks h'.blocks
  entry := by
    intro k hk
    have hb := h.blocks
    have hb' := h'.blocks
    -- An entry that is not 0 stays through both. A hole may be filled only between the old number
    -- of blocks and the new one.
    by_cases hne : u.entry k = 0
    · have hk₁ : k < u.din.blocks ∨ w.din.blocks ≤ k := by
        rcases hk with hk | hk
        · exact absurd hne hk
        · exact hk
      rw [h'.entry k (Or.inr (by omega)), h.entry k (Or.inr (by omega))]
    · have hv := h.entry k (Or.inl hne)
      have hv' := h'.entry k (Or.inl (by rw [hv]; exact hne))
      exact hv'.trans hv
  disk := h'.disk.trans h.disk
  dirty := fun hd => h'.dirty (h.dirty hd)
  clean := by
    intro hd
    have hd' : v.dirty = false := by
      by_contra hne
      rw [Bool.not_eq_false] at hne
      rw [h'.dirty hne] at hd
      cases hd
    rw [h'.clean hd, h.clean hd']
  grew := by
    intro hne
    by_cases hv : v.din.blocks = u.din.blocks
    · have hgrew := h'.grew (by omega)
      have hentry := h.entry v.din.blocks (Or.inr (Or.inr (le_refl _)))
      rw [hentry, hv] at hgrew
      rcases hgrew with hg | hg | ⟨hg, hind⟩
      · exact Or.inl hg
      · exact Or.inr (Or.inl hg)
      · by_cases hu : u.din.indirect = 0
        · by_cases hd : w.dirty = true
          · exact Or.inl hd
          · -- an indirect block that is new has marked the inode
            rw [Bool.not_eq_true] at hd
            have hd' : v.dirty = false := by
              by_contra hne'
              rw [Bool.not_eq_false] at hne'
              rw [h'.dirty hne'] at hd
              cases hd
            rw [h.clean hd'] at hind
            exact absurd hu hind
        · exact Or.inr (Or.inr ⟨hg, hu⟩)
    · rcases h.grew hv with hg | hg
      · exact Or.inl (h'.dirty hg)
      · exact Or.inr hg
  indirect := by
    intro hne
    have hv := h.indirect hne
    rw [h'.indirect (by rw [hv]; exact hne), hv]

/-! ### The free blocks that are needed -/

/-- Blocks that the file has cost nothing. -/
theorem needed_of_le (h : n ≤ v.din.blocks) : needed v n = 0 := by
  unfold needed
  rw [Finset.Ico_eq_empty_of_le h, if_neg (by omega)]
  rfl

/-- An entry of the indirect block has an indirect block. -/
def Wired (v : FileView) : Prop := ∀ k, 12 ≤ k → v.entry k ≠ 0 → v.din.indirect ≠ 0

/-- The block map of a file of the volume is read from its inode. -/
theorem view_wired (sfs : Sfs) (i : Nat) : Wired (view sfs i) :=
  fun _ hk hne hind => hne (entryAt_no_indirect hk hind)

/-- What the next block costs. -/
theorem needed_succ (hw : Wired v) : needed v (v.din.blocks + 1) = cost v v.din.blocks := by
  unfold needed cost
  rw [Nat.Ico_succ_singleton]
  by_cases hzero : v.entry v.din.blocks = 0
  · rw [Finset.filter_singleton, if_pos hzero, if_neg (not_not.mpr hzero)]
    by_cases hind : 12 ≤ v.din.blocks ∧ v.din.indirect = 0
    · rw [if_pos hind, if_pos ⟨hind.2, by omega, by omega⟩]
      rfl
    · rw [if_neg hind, if_neg fun h => hind ⟨by omega, h.1⟩]
      rfl
  · rw [Finset.filter_singleton, if_neg hzero, if_pos hzero,
      if_neg fun h => hw _ (by omega) hzero h.1]
    rfl

/-- More blocks cost more. -/
theorem needed_mono {m : Nat} (h : m ≤ n) : needed v m ≤ needed v n := by
  unfold needed
  apply Nat.add_le_add
  · apply Finset.card_le_card
    apply Finset.filter_subset_filter
    exact Finset.Ico_subset_Ico_right h
  · by_cases hm : v.din.indirect = 0 ∧ 12 < m ∧ v.din.blocks < m
    · rw [if_pos hm, if_pos ⟨hm.1, by omega, by omega⟩]
    · rw [if_neg hm]
      exact Nat.zero_le _

/-- What mapping the next index costs is no longer needed. -/
theorem needed_step (hw : Wired v) (hw' : Wired w)
    (hentry : w.entry = Function.update v.entry v.din.blocks b) (hb : b ≠ 0)
    (hblocks : w.din.blocks = v.din.blocks + 1)
    (hind : v.din.indirect ≠ 0 → w.din.indirect = v.din.indirect)
    (hlow : v.din.blocks < 12 → w.din.indirect = v.din.indirect)
    (hn : w.din.blocks ≤ n) : needed v n = needed w n + cost v v.din.blocks := by
  have hset : (Finset.Ico w.din.blocks n).filter (fun k => w.entry k = 0) =
      (Finset.Ico w.din.blocks n).filter fun k => v.entry k = 0 := by
    apply Finset.filter_congr
    intro k hk
    rw [Finset.mem_Ico] at hk
    rw [hentry, Function.update_of_ne (by omega)]
  have hself : w.entry v.din.blocks ≠ 0 := by
    rw [hentry, Function.update_self]
    exact hb
  have hico : Finset.Ico v.din.blocks n = insert v.din.blocks (Finset.Ico w.din.blocks n) := by
    rw [hblocks]
    exact (Finset.insert_Ico_add_one_left_eq_Ico (by omega)).symm
  have hnot : v.din.blocks ∉ (Finset.Ico w.din.blocks n).filter fun k => v.entry k = 0 := by
    rw [Finset.mem_filter, Finset.mem_Ico]
    omega
  unfold needed cost
  rw [hset, hico, Finset.filter_insert]
  by_cases hzero : v.entry v.din.blocks = 0
  · -- the block is counted, and the indirect block when it is the first to need it
    have hwind : v.din.blocks < 12 ∧ w.din.indirect = v.din.indirect ∨
        12 ≤ v.din.blocks ∧ w.din.indirect ≠ 0 := by
      by_cases hk : 12 ≤ v.din.blocks
      · exact Or.inr ⟨hk, hw' _ hk hself⟩
      · exact Or.inl ⟨by omega, hlow (by omega)⟩
    rw [if_pos hzero, Finset.card_insert_of_notMem hnot, if_neg (not_not.mpr hzero)]
    by_cases hv : v.din.indirect = 0
    · split_ifs <;> omega
    · have hwv := hind hv
      split_ifs <;> omega
  · have hwind : v.din.indirect = 0 ∧ v.din.blocks < 12 ∧ w.din.indirect = 0 ∨
        v.din.indirect ≠ 0 ∧ w.din.indirect ≠ 0 := by
      by_cases hv : v.din.indirect = 0
      · have hk : v.din.blocks < 12 := by
          by_contra hk
          exact hw _ (by omega) hzero hv
        exact Or.inl ⟨hv, hk, (hlow hk).trans hv⟩
      · exact Or.inr ⟨hv, by rw [hind hv]; exact hv⟩
    rw [if_neg hzero, if_pos hzero]
    split_ifs <;> omega

/-! ### Calls of `sfs_bmap_load_nolock` -/

/-- Some indices of the file have been mapped. The bytes of the file are told apart. -/
structure Grown (I : Finset Nat) (i : Nat) (sfs sfs' : Sfs) : Prop where
  core : Core I sfs'
  kept : Kept I i sfs sfs'
  mapped : Mapped (view sfs' i)
  stretched : Stretched (view sfs i) (view sfs' i)
  need : ∀ n, (view sfs' i).din.blocks ≤ n →
    needed (view sfs i) n + sfs'.super.unused_blocks =
      needed (view sfs' i) n + sfs.super.unused_blocks

/-- Nothing has been done. -/
theorem Grown.refl (hcore : Core I sfs) (hmapped : Mapped (view sfs i)) : Grown I i sfs sfs where
  core := hcore
  kept := Kept.refl sfs
  mapped := hmapped
  stretched := Stretched.refl _
  need := fun _ _ => rfl

/-- No index behind the block map is mapped. -/
theorem Mapped.blocks_le (h : Mapped (view sfs i)) : (view sfs i).din.blocks ≤ 1036 := by
  by_contra hgt
  exact h 1036 (by omega) (entryAt_far (le_refl _))

/-- The blocks that have been mapped were free. -/
theorem Grown.fits (h : Grown I i sfs sfs') :
    needed (view sfs i) (view sfs' i).din.blocks ≤ sfs.super.unused_blocks := by
  have hneed := h.need _ (le_refl _)
  rw [needed_of_le (le_refl _)] at hneed
  omega

/-- When the block map is full, the rest of it was free. -/
theorem Grown.fits_full (h : Grown I i sfs sfs') (hfull : 1036 ≤ (view sfs' i).din.blocks) :
    needed (view sfs i) 1036 ≤ sfs.super.unused_blocks := by
  have hfits := h.fits
  rwa [Nat.le_antisymm h.mapped.blocks_le hfull] at hfits

/-- One call on a file after another. -/
theorem Grown.trans (h : Grown I i sfs sfs') (h' : Grown I i sfs' sfs'') :
    Grown I i sfs sfs'' where
  core := h'.core
  kept := h.kept.trans h'.kept
  mapped := h'.mapped
  stretched := h.stretched.trans h'.stretched
  need := by
    intro n hn
    have h₁ := h.need n (le_trans h'.stretched.blocks hn)
    have h₂ := h'.need n hn
    omega

/-- The inode is still in memory. -/
theorem Kept.exists_sin (h : Kept I i sfs sfs') (hsin : sfs.inodes i = some sin) :
    ∃ sin', sfs'.inodes i = some sin' := by
  obtain ⟨din, dirty, heq⟩ := h.self sin hsin
  exact ⟨_, heq⟩

/-- What happens to a block without a place is no change of the file. -/
theorem Idle.grown (h : Idle sfs sfs') (hcore : Core I sfs) (hi : i ∈ I)
    (hmapped : Mapped (view sfs i)) : Grown I i sfs sfs' := by
  have hview := h.view_eq hcore hi
  refine ⟨h.core hcore, h.kept hcore hi, ?_, ?_, ?_⟩
  · rw [hview]
    exact hmapped
  · rw [hview]
    exact Stretched.refl _
  · intro n _
    rw [hview, h.super]

/-- The number of blocks has been counted up, behind an index that has been mapped. -/
theorem Mapping.grown (h : Mapping I i (view sfs i).din.blocks sfs b sfs')
    (hsin' : sfs'.inodes i = some sin) (hmapped : Mapped (view sfs i)) :
    Grown I i sfs
      (withDin sfs' i sin { sin.din with blocks := sin.din.blocks + 1 } false) := by
  have hview := view_withDin { sin.din with blocks := sin.din.blocks + 1 } false hsin' rfl rfl
  have hdin : (view sfs' i).din = sin.din := by
    rw [view_eq hsin']
  have hblocks : sin.din.blocks = (view sfs i).din.blocks := by
    rw [← hdin, h.din]
  have hdirty : (view sfs' i).dirty = sin.dirty := by
    rw [view_eq hsin']
  -- `Core` and the other files do not see the number of blocks. What does is `Mapped`, the
  -- comparison with the file before (`Stretched`), and the count of the blocks still needed.
  refine ⟨h.core.withDin hsin' rfl rfl, h.kept.trans (Kept.withDin h.core hsin' rfl rfl),
    ?_, ?_, ?_⟩
  · rw [hview]
    intro k hk
    show (view sfs' i).entry k ≠ 0
    rw [h.entry]
    by_cases hlast : k = (view sfs i).din.blocks
    · rw [hlast, Function.update_self]
      exact h.ne_zero
    · rw [Function.update_of_ne hlast]
      apply hmapped
      replace hk : k < sin.din.blocks + 1 := hk
      omega
  · rw [hview]
    refine ⟨?_, ?_, ?_, ?_, ?_, ?_, ?_, ?_⟩
    · show SfsDiskInode.mk _ _ _ (sin.din.blocks + 1) _ _ = _
      rw [← hdin, h.din]
    · show (view sfs i).din.blocks ≤ sin.din.blocks + 1
      omega
    · intro k hk
      show (view sfs' i).entry k = _
      rw [h.entry]
      by_cases hlast : k = (view sfs i).din.blocks
      · rw [hlast] at hk ⊢
        rw [Function.update_self]
        rcases hk with hk | hk
        · exact h.same hk
        · replace hk : _ ∨ sin.din.blocks + 1 ≤ (view sfs i).din.blocks := hk
          omega
      · rw [Function.update_of_ne hlast]
    · exact h.kept.disk
    · intro hd
      show (sin.dirty || false) = true
      rw [Bool.or_false, ← hdirty]
      exact h.dirty hd
    · intro hd
      replace hd : (sin.dirty || false) = false := hd
      rw [Bool.or_false, ← hdirty] at hd
      show SfsDiskInode.mk _ _ _ (sin.din.blocks + 1) _ _ = _
      rw [← hdin, h.clean hd]
    · intro _
      show (sin.dirty || false) = true ∨ _
      rw [Bool.or_false, ← hdirty]
      exact h.grew
    · intro hne
      show sin.din.indirect = _
      rw [← hdin]
      exact h.indirect hne
  -- `n` blocks need as many free ones as before, less what this index has taken (`needed_step`).
  · intro n hn
    have hcost := h.unused
    have hstep := needed_step (view_wired sfs i) (w := view (withDin sfs' i sin
      { sin.din with blocks := sin.din.blocks + 1 } false) i) (view_wired _ i) (b := b) (n := n)
      (by rw [hview]; exact h.entry) h.ne_zero
      (by rw [hview]; show sin.din.blocks + 1 = _; rw [hblocks])
      (by
        intro hne
        rw [hview]
        show sin.din.indirect = _
        rw [← hdin]
        exact h.indirect hne)
      (by
        intro hlow
        rw [hview]
        show sin.din.indirect = _
        rw [← hdin]
        exact h.indirect_low hlow) hn
    show _ + sfs'.super.unused_blocks = _
    omega

/-- What a successful `sfs_bmap_load_nolock` has done. -/
structure Loaded (I : Finset Nat) (i k : Nat) (sfs : Sfs) (b : Nat) (sfs' : Sfs) : Prop where
  grown : Grown I i sfs sfs'
  entry : (view sfs' i).entry k = b
  ne_zero : b ≠ 0
  blocks : (view sfs' i).din.blocks = max (view sfs i).din.blocks (k + 1)
  content : (view sfs' i).content = (view sfs i).content
  found : k < (view sfs i).din.blocks → sfs' = sfs

/-- `sfs_bmap_load_nolock` reaches the block, or it does not change the file: there are not
enough free blocks. It does not return when the index is behind the last block, or too large
for the block map. -/
theorem ends_load {H : SfsPanic → Prop} (hcore : Core I sfs) (hi : i ∈ I)
    (hsin : sfs.inodes i = some sin) (hmapped : Mapped (view sfs i))
    (hindex : (view sfs i).din.blocks < k → H .loadIndex)
    (hrange : k = (view sfs i).din.blocks → 1036 ≤ k → H .bmapRange) :
    (sfs_bmap_load_nolock i k).Ends sfs (fun b sfs' => Loaded I i k sfs b sfs')
      (fun e sfs' => e = .noMem ∧ Idle sfs sfs' ∧ k = (view sfs i).din.blocks ∧ k < 1036 ∧
        sfs.super.unused_blocks < needed (view sfs i) (k + 1)) H := by
  have hblocks : sin.din.blocks = (view sfs i).din.blocks := by
    rw [view_eq hsin]
  unfold sfs_bmap_load_nolock
  rw [Routine.ends_bind, ends_sfsInode hsin, Routine.ends_bind, Routine.ends_assert, hblocks]
  by_cases hle : k ≤ (view sfs i).din.blocks
  · rw [if_pos hle]
    -- `index == din->blocks`: the block is created, and the file has one block more.
    by_cases hlast : k = (view sfs i).din.blocks
    · rw [Routine.ends_bind, decide_eq_true hlast]
      by_cases hfar : 1036 ≤ k
      · exact ends_get_range hfar (hrange hlast hfar)
      -- `assert(sfs_block_inuse(sfs, ino))` holds because the block has a slot now.
      · apply (ends_get hcore hi hsin (by omega)).mono
        · intro b sfs' hmap
          obtain ⟨sin', hsin'⟩ := hmap.kept.exists_sin hsin
          have hslot : slot I sfs' (.data i k) = b := by
            rw [slot_data hi, hmap.entry, Function.update_self]
          have hne : slot I sfs' (.data i k) ≠ 0 := by
            rw [hslot]
            exact hmap.ne_zero
          have hused := hmap.core.used hne
          have hlt := hmap.core.lt _ hne
          rw [hslot] at hused hlt
          rw [Routine.ends_bind, ends_block_inuse hmap.core.pool.bits hmap.ne_zero hlt,
            Routine.ends_bind, ends_check (by rw [hused]; rfl), Routine.ends_bind,
            Routine.ends_when, if_pos hlast, ends_setDin hsin', Routine.ends_pure]
          have hview := view_withDin { sin'.din with blocks := sin'.din.blocks + 1 } false hsin'
            rfl rfl
          rw [hlast] at hmap
          refine ⟨hmap.grown hsin' hmapped, ?_, hmap.ne_zero, ?_, ?_, fun hlt => by omega⟩
          · rw [hview]
            show (view sfs' i).entry k = b
            rw [hmap.entry, hlast, Function.update_self]
          · have hdin : (view sfs' i).din = sin'.din := by
              rw [view_eq hsin']
            rw [hview]
            show sin'.din.blocks + 1 = _
            rw [← hdin, hmap.din]
            show (view sfs i).din.blocks + 1 = _
            omega
          · rw [hview]
            exact hmap.content
        · rintro e sfs' ⟨rfl, hidle, hcost⟩
          refine ⟨rfl, hidle, hlast, Nat.lt_of_not_le hfar, ?_⟩
          rw [hlast, needed_succ (view_wired sfs i), ← hlast]
          exact hcost
        · exact fun _ h => h.elim
    -- A block that is there: nothing changes.
    · have hne : (view sfs i).entry k ≠ 0 := hmapped k (by omega)
      rw [Routine.ends_bind, decide_eq_false hlast]
      apply ends_get_found hcore hi hsin hne
      have hslot : slot I sfs (.data i k) ≠ 0 := by
        rw [slot_data hi]
        exact hne
      have hused := hcore.used hslot
      have hlt := hcore.lt _ hslot
      rw [slot_data hi] at hused hlt
      rw [Routine.ends_bind, ends_block_inuse hcore.pool.bits hne hlt, Routine.ends_bind,
        ends_check (by rw [hused]; rfl), Routine.ends_bind, Routine.ends_when, if_neg hlast,
        Routine.ends_pure]
      exact ⟨Grown.refl hcore hmapped, rfl, hne, by omega, rfl, fun _ => rfl⟩
  · rw [if_neg hle]
    exact hindex (by omega)

end Ucore.Proofs.Fs
