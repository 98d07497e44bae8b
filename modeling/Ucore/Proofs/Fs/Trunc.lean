import Ucore.Proofs.Fs.Load

/-!
# `Ucore.Proofs.Fs.Trunc`: enlarging and reducing a file

`Freed` says what freeing one index has done and `Shrunk` what reducing a file has done.
Behind them stand the two loops of `sfs_truncfile` and the function as a whole.

* `ends_reduce`: the loop that reduces the file frees one block from the end in each round. The
  induction is on the blocks that are left, with `Shrunk.trans` for the step.
* `ends_enlarge`: the loop that enlarges the file maps one block behind the end in each round, until
  the length is reached or a block cannot be had. In the second case the source does not go back,
  and `Stuck` says how far it has come.
* `ends_truncfile`: the size is set when the blocks are there. The length is refused when it is out
  of range. When blocks are missing the call fails with `-E_NO_MEM`.

A file that is cut keeps the indirect block, even when no entry of it is left. Its place in
`Slot` keeps it apart from the free blocks.
-/

set_option autoImplicit false

namespace Ucore.Proofs.Fs

open Ucore.Lib Ucore.Fs

variable {I : Finset Nat} {i k n b : Nat} {sfs sfs' sfs'' : Sfs} {sin : SfsInode}

/-! ### Freeing an index -/

/-- The block of the index `k` has been freed. -/
structure Freed (I : Finset Nat) (i k : Nat) (sfs sfs' : Sfs) : Prop where
  core : Core I sfs'
  kept : Kept I i sfs sfs'
  entry : (view sfs' i).entry = Function.update (view sfs i).entry k 0
  content : ∀ pos, (view sfs' i).content pos =
    if pos / 4096 = k then 0 else (view sfs i).content pos
  din : (view sfs' i).din = { (view sfs i).din with direct := (view sfs' i).din.direct }
  unused : sfs'.super.unused_blocks = sfs.super.unused_blocks + 1

/-- Clearing an entry of a file and freeing its block is all that `Freed` asks for. -/
theorem Freed.of_linked (hcore : Core I sfs) (hi : i ∈ I) (hsin : sfs.inodes i = some sin)
    (din : SfsDiskInode) (dirty : Bool)
    (hinodes : sfs'.inodes =
      Function.update sfs.inodes i (some { sin with din := din, dirty := dirty }))
    (hdin : din = { sin.din with direct := din.direct })
    (hentry : entryAt din sfs'.dev = Function.update (entryAt sin.din sfs.dev) k 0)
    (hne : entryAt sin.din sfs.dev k ≠ 0)
    (hpool : Pool sfs')
    (hsuper : sfs'.super =
      { sfs.super with unused_blocks := sfs.super.unused_blocks + 1 })
    (hfree : sfs'.freemap.isFree =
      Function.update sfs.freemap.isFree (entryAt sin.din sfs.dev k) true)
    (hbits : sfs'.freemap.nbits = sfs.freemap.nbits ∧ sfs'.freemap.nwords = sfs.freemap.nwords)
    (hsuperDirty : sfs'.super_dirty = true) (hlist : sfs'.inode_list = sfs.inode_list)
    (hdev : ∀ x, x ≠ .indirect i → slot I sfs x ≠ 0 →
      sfs'.dev (slot I sfs x) = sfs.dev (slot I sfs x))
    (hdev0 : sfs'.dev 0 = sfs.dev 0) : Freed I i k sfs sfs' := by
  have hblocks : sfs'.super.blocks = sfs.super.blocks := by rw [hsuper]
  have hind : din.indirect = sin.din.indirect := by rw [hdin]
  -- The indirect block stays where it is, also when its last entry goes.
  have hslot : slot I sfs' = Function.update (slot I sfs) (.data i k) 0 := by
    have hself : Function.update (slot I sfs) (.indirect i) sin.din.indirect = slot I sfs := by
      have hslot : slot I sfs (.indirect i) = sin.din.indirect := by
        rw [slot_indirect hi, view_eq hsin]
      rw [← hslot]
      exact Function.update_eq_self _ _
    rw [slot_linked hcore hi hsin din dirty hinodes hentry hblocks hdev, hind, hself]
  have hdata : ∀ c, slot I sfs (.data i c) = entryAt sin.din sfs.dev c := by
    intro c
    rw [slot_data hi, view_eq hsin]
  have hnew : sfs'.inodes i = some { sin with din := din, dirty := dirty } := by
    rw [hinodes, Function.update_self]
  refine ⟨⟨hpool, ?_, ?_, ?_, hcore.pos⟩, ?_, ?_, ?_, ?_, ?_⟩
  · rw [hslot, hfree, ← hdata]
    exact hcore.owned.give (by rw [hdata]; exact hne)
  · intro x hx
    rw [hslot] at hx ⊢
    rw [hblocks]
    by_cases hxd : x = .data i k
    · rw [hxd, Function.update_self] at hx
      exact absurd rfl hx
    · rw [Function.update_of_ne hxd] at hx ⊢
      exact hcore.lt x hx
  · rw [hblocks]
    exact hcore.fits
  -- The other files have the same blocks with the same bytes.
  · apply Kept.of_dev hcore.pos
    · rw [hsuper]
    · exact hbits.1
    · exact hbits.2
    · intro hd
      rw [hsuperDirty] at hd
      cases hd
    · exact hlist
    · intro j hj
      rw [hinodes, Function.update_of_ne hj]
    · intro sin' hsin'
      rw [hsin] at hsin'
      cases hsin'
      exact ⟨din, dirty, hnew⟩
    · intro x hx hne'
      refine hdev x ?_ hne'
      rintro rfl
      exact hx rfl
    · have h := hdev (.inode i) (by simp)
      rw [slot_inode hi] at h
      exact h (hcore.pos i hi)
    · exact hdev0
    · rw [hslot, hblocks, hfree, ← hdata]
      exact fun hc => hc.give
  · rw [view_eq hnew, view_eq hsin]
    exact hentry
  -- The bytes: the positions in the block that went read as zeros, the others as before.
  · intro pos
    rw [view_eq hnew, view_eq hsin]
    show contentAt din sfs'.dev pos = if _ then 0 else contentAt sin.din sfs.dev pos
    unfold contentAt
    rw [hentry]
    by_cases hk : pos / 4096 = k
    · rw [hk, Function.update_self, if_pos rfl, if_pos rfl]
    · rw [Function.update_of_ne hk, if_neg hk]
      by_cases hzero : entryAt sin.din sfs.dev (pos / 4096) = 0
      · rw [if_pos hzero, if_pos hzero]
      · have h := hdev (.data i (pos / 4096)) (by simp)
        rw [hdata] at h
        rw [if_neg hzero, if_neg hzero, h hzero]
  · rw [view_eq hnew, view_eq hsin]
    exact hdin
  · rw [hsuper]

/-- `sfs_bmap_free_nolock` at an index that is mapped. -/
theorem ends_bmap_free (hcore : Core I sfs) (hi : i ∈ I) (hsin : sfs.inodes i = some sin)
    (hne : (view sfs i).entry k ≠ 0) :
    (sfs_bmap_free_nolock i k).Ends sfs (fun _ sfs' => Freed I i k sfs sfs')
      (fun _ _ => False) fun _ => False := by
  have hslot : slot I sfs (.data i k) = entryAt sin.din sfs.dev k := by
    rw [slot_data hi, view_eq hsin]
  have hind : slot I sfs (.indirect i) = sin.din.indirect := by
    rw [slot_indirect hi, view_eq hsin]
  rw [view_eq hsin] at hne
  replace hne : entryAt sin.din sfs.dev k ≠ 0 := hne
  have hused := hcore.used (x := .data i k) (by rw [hslot]; exact hne)
  have hlt := hcore.lt (.data i k) (by rw [hslot]; exact hne)
  rw [hslot] at hused hlt
  unfold sfs_bmap_free_nolock
  rw [Routine.ends_bind, ends_sfsInode hsin]
  -- A direct entry is cleared in the inode, and an indirect one in the indirect block.
  by_cases hlow : k < 12
  · have hdirect : entryAt sin.din sfs.dev k = sin.din.direct ⟨k, hlow⟩ := dif_pos hlow
    rw [dif_pos hlow, Routine.ends_when, ← hdirect, if_pos hne]
    apply (ends_block_free hcore.pool hne hlt hused).seq
    · intro _ sfs₁ hgave
      have hsin₁ : sfs₁.inodes i = some sin := by
        rw [hgave.inodes]
        exact hsin
      rw [ends_setDin hsin₁]
      apply Freed.of_linked hcore hi hsin
        { sin.din with direct := Function.update sin.din.direct ⟨k, hlow⟩ 0 } (sin.dirty || true)
      · show Function.update sfs₁.inodes i _ = _
        rw [hgave.inodes]
      · rfl
      · show entryAt _ sfs₁.dev = _
        rw [entryAt_setDirect hlow, hgave.dev]
      · exact hne
      · exact (hgave.pool hcore.pool hne hlt hused).congr rfl rfl
      · exact hgave.super
      · exact hgave.isFree
      · exact ⟨hgave.nbits, hgave.nwords⟩
      · exact hgave.superDirty
      · exact hgave.list
      · intro x _ _
        show sfs₁.dev _ = _
        rw [hgave.dev]
      · show sfs₁.dev 0 = _
        rw [hgave.dev]
    · exact fun _ _ h => h
    · exact fun _ h => h
  · have hfar : k < 1036 := by
      by_contra h
      exact hne (entryAt_far (by omega))
    have hind0 : sin.din.indirect ≠ 0 := fun h => hne (entryAt_no_indirect (by omega) h)
    have hltind : sin.din.indirect < sfs.super.blocks := by
      have h := hcore.lt (.indirect i)
      rw [hind] at h
      exact h hind0
    have husedind : sfs.freemap.isFree sin.din.indirect = false := by
      have h := hcore.used (x := .indirect i)
      rw [hind] at h
      exact h hind0
    -- What `sfs_bmap_free_sub_nolock` reads from the indirect block is the entry of the file.
    have hload : ofLe ((sfs.dev sin.din.indirect).slice ((k - 12) * 4) 4) =
        entryAt sin.din sfs.dev k := (entryAt_indirect (by omega) hfar hind0).symm
    rw [dif_neg hlow, Routine.ends_when, if_pos ⟨by omega, hind0⟩]
    unfold sfs_bmap_free_sub_nolock
    rw [Routine.ends_bind, ends_block_inuse hcore.pool.bits hind0 hltind, Routine.ends_bind,
      ends_check (by rw [husedind]; rfl), Routine.ends_bind, Routine.ends_assert,
      if_pos (by omega), Routine.ends_bind, ends_rbuf hind0 hltind (by omega) (by omega), hload,
      Routine.ends_when, if_pos hne, Routine.ends_bind,
      ends_wbuf hind0 hltind (by omega) (by rw [length_toLe]; omega)]
    have hpool₁ : Pool (withEntry sfs sin.din.indirect (k - 12) 0) := hcore.pool.congr rfl rfl
    apply (ends_block_free hpool₁ hne hlt hused).mono
    · intro _ sfs₁ hgave
      have hdev : ∀ c, c ≠ sin.din.indirect → sfs₁.dev c = sfs.dev c := by
        intro c hc
        rw [hgave.dev]
        exact Function.update_of_ne hc _ _
      -- The inode has not changed, and the call does not mark it dirty.
      apply Freed.of_linked hcore hi hsin sin.din sin.dirty
      · rw [hgave.inodes]
        exact (Function.update_eq_self_iff.mpr hsin.symm).symm
      · rfl
      · apply entryAt_store (by omega) hfar hind0 (by decide)
        rw [hgave.dev]
        exact Function.update_self ..
      · exact hne
      · exact hgave.pool hpool₁ hne hlt hused
      · exact hgave.super
      · exact hgave.isFree
      · exact ⟨hgave.nbits, hgave.nwords⟩
      · exact hgave.superDirty
      · exact hgave.list
      · intro x hx hx'
        apply hdev
        rw [← hind]
        exact hcore.ne_slot hx' hx
      · exact hdev 0 (Ne.symm hind0)
    · exact fun _ _ h => h
    · exact fun _ h => h

/-! ### Reducing -/

/-- The file has been reduced to `n` blocks. -/
structure Shrunk (I : Finset Nat) (i n : Nat) (sfs sfs' : Sfs) : Prop where
  core : Core I sfs'
  kept : Kept I i sfs sfs'
  mapped : Mapped (view sfs' i)
  din : (view sfs' i).din =
    { (view sfs i).din with blocks := n, direct := (view sfs' i).din.direct }
  le : n ≤ (view sfs i).din.blocks
  dirty : n < (view sfs i).din.blocks → (view sfs' i).dirty = true
  same : n = (view sfs i).din.blocks → sfs' = sfs
  entry : ∀ k, (view sfs' i).entry k =
    if n ≤ k ∧ k < (view sfs i).din.blocks then 0 else (view sfs i).entry k
  content : ∀ pos, (view sfs' i).content pos =
    if n ≤ pos / 4096 ∧ pos / 4096 < (view sfs i).din.blocks then 0
    else (view sfs i).content pos
  unused : sfs'.super.unused_blocks =
    sfs.super.unused_blocks + ((view sfs i).din.blocks - n)

/-- `sfs_bmap_truncate_nolock` frees the last block. -/
theorem ends_bmap_truncate (hcore : Core I sfs) (hi : i ∈ I) (hsin : sfs.inodes i = some sin)
    (hmapped : Mapped (view sfs i)) (hn : (view sfs i).din.blocks = n + 1) :
    (sfs_bmap_truncate_nolock i).Ends sfs (fun _ sfs' => Shrunk I i n sfs sfs')
      (fun _ _ => False) fun _ => False := by
  have hblocks : sin.din.blocks = n + 1 := by
    rw [← hn, view_eq hsin]
  unfold sfs_bmap_truncate_nolock
  rw [Routine.ends_bind, ends_sfsInode hsin, Routine.ends_bind, Routine.ends_assert,
    if_pos (by omega), hblocks, Nat.add_sub_cancel]
  apply (ends_bmap_free hcore hi hsin (hmapped n (by omega))).seq
  -- Behind the free comes `din->blocks --`, which turns the hole at the end into the end of the
  -- file.
  · intro _ sfs₁ hfreed
    obtain ⟨sin₁, hsin₁⟩ := hfreed.kept.exists_sin hsin
    have hview := view_withDin { sin₁.din with blocks := sin₁.din.blocks - 1 } true hsin₁ rfl rfl
    have hdin : sin₁.din = { (view sfs i).din with direct := sin₁.din.direct } := by
      have h := hfreed.din
      rw [view_eq hsin₁] at h
      exact h
    rw [ends_setDin hsin₁]
    refine ⟨hfreed.core.withDin hsin₁ rfl rfl,
      hfreed.kept.trans (Kept.withDin hfreed.core hsin₁ rfl rfl), ?_, ?_, by omega, ?_, ?_, ?_,
      ?_, ?_⟩
    · rw [hview]
      intro k hk
      replace hk : k < sin₁.din.blocks - 1 := hk
      rw [hdin] at hk
      replace hk : k < (view sfs i).din.blocks - 1 := hk
      show (view sfs₁ i).entry k ≠ 0
      rw [hfreed.entry, Function.update_of_ne (by omega)]
      exact hmapped k (by omega)
    · rw [hview]
      show SfsDiskInode.mk _ _ _ (sin₁.din.blocks - 1) _ _ = _
      rw [hdin]
      show SfsDiskInode.mk _ _ _ ((view sfs i).din.blocks - 1) _ _ = _
      rw [hn]
      rfl
    · intro _
      rw [hview]
      exact Bool.or_true _
    · intro h
      omega
    · intro k
      rw [hview]
      show (view sfs₁ i).entry k = _
      rw [hfreed.entry]
      by_cases hk : k = n
      · rw [hk, Function.update_self, if_pos ⟨le_refl _, by omega⟩]
      · rw [Function.update_of_ne hk, if_neg (by omega)]
    · intro pos
      rw [hview]
      show (view sfs₁ i).content pos = _
      rw [hfreed.content]
      by_cases hk : pos / 4096 = n
      · rw [if_pos hk, if_pos ⟨by omega, by omega⟩]
      · rw [if_neg hk, if_neg (by omega)]
    · show sfs₁.super.unused_blocks = _
      rw [hfreed.unused, hn, Nat.add_sub_cancel_left]
  · exact fun _ _ h => h
  · exact fun _ h => h

/-- A file is cut at its own length by doing nothing. -/
theorem Shrunk.refl (hcore : Core I sfs) (hmapped : Mapped (view sfs i)) :
    Shrunk I i (view sfs i).din.blocks sfs sfs where
  core := hcore
  kept := Kept.refl sfs
  mapped := hmapped
  din := rfl
  le := le_refl _
  dirty := fun h => absurd h (lt_irrefl _)
  same := fun _ => rfl
  entry := fun k => by rw [if_neg (by omega)]
  content := fun pos => by rw [if_neg (by omega)]
  unused := by omega

/-- Two cuts of a file in a row are one. -/
theorem Shrunk.trans {m : Nat} (h : Shrunk I i m sfs sfs') (h' : Shrunk I i n sfs' sfs'')
    (hlt : m < (view sfs i).din.blocks) : Shrunk I i n sfs sfs'' := by
  have hm : (view sfs' i).din.blocks = m := by rw [h.din]
  have hle := h.le
  have hle' := h'.le
  rw [hm] at hle'
  refine ⟨h'.core, h.kept.trans h'.kept, h'.mapped, ?_, by omega, ?_, ?_, ?_, ?_, ?_⟩
  · rw [h'.din, h.din]
  · intro _
    by_cases hn : n < m
    · exact h'.dirty (by omega)
    · rw [h'.same (by omega)]
      exact h.dirty hlt
  · intro hn
    omega
  · intro k
    rw [h'.entry, h.entry, hm]
    split_ifs <;> first | rfl | omega
  · intro pos
    rw [h'.content, h.content, hm]
    split_ifs <;> first | rfl | omega
  · rw [h'.unused, h.unused, hm]
    omega

/-- The loop that reduces the file. -/
theorem ends_reduce (hi : i ∈ I) {m : Nat} (hcore : Core I sfs)
    (hsin : sfs.inodes i = some sin) (hmapped : Mapped (view sfs i))
    (hn : (view sfs i).din.blocks = n + m) :
    (sfs_truncfile_reduce i m).Ends sfs (fun _ sfs' => Shrunk I i n sfs sfs')
      (fun _ _ => False) fun _ => False := by
  induction m generalizing sfs sin with
  | zero =>
      unfold sfs_truncfile_reduce
      rw [Routine.ends_pure]
      rw [Nat.add_zero] at hn
      rw [← hn]
      exact Shrunk.refl hcore hmapped
  | succ m ih =>
      unfold sfs_truncfile_reduce
      apply (ends_bmap_truncate hcore hi hsin hmapped (n := n + m) (by omega)).seq
      · intro _ sfs₁ h₁
        obtain ⟨sin₁, hsin₁⟩ := h₁.kept.exists_sin hsin
        have hm : (view sfs₁ i).din.blocks = n + m := by rw [h₁.din]
        apply (ih h₁.core hsin₁ h₁.mapped hm).mono
        · intro _ sfs' h'
          exact h₁.trans h' (by omega)
        · exact fun _ _ h => h
        · exact fun _ h => h
      · exact fun _ _ h => h
      · exact fun _ h => h

/-! ### Enlarging -/

/-- The file has been enlarged up to a block that cannot be had. -/
structure Stuck (I : Finset Nat) (i n : Nat) (sfs sfs' : Sfs) : Prop where
  grown : Grown I i sfs sfs'
  content : (view sfs' i).content = (view sfs i).content
  lt : (view sfs' i).din.blocks < n
  below : (view sfs' i).din.blocks < 1036
  idle : (view sfs' i).din.blocks = (view sfs i).din.blocks → Idle sfs sfs'
  unused : sfs'.super.unused_blocks <
    needed (view sfs' i) ((view sfs' i).din.blocks + 1)

/-- There were not enough free blocks for more than the file has got. -/
theorem Stuck.lt_needed_of_lt {m : Nat} (h : Stuck I i n sfs sfs')
    (hm : (view sfs' i).din.blocks < m) : sfs.super.unused_blocks < needed (view sfs i) m := by
  have hn := h.grown.need m (le_of_lt hm)
  have hmono := needed_mono (v := view sfs' i) (Nat.succ_le_of_lt hm)
  have hunused := h.unused
  have hsucc : (view sfs' i).din.blocks + 1 = ((view sfs' i).din.blocks).succ := rfl
  rw [hsucc] at hunused
  omega

/-- There were not enough free blocks. -/
theorem Stuck.lt_needed (h : Stuck I i n sfs sfs') :
    sfs.super.unused_blocks < needed (view sfs i) n := h.lt_needed_of_lt h.lt

/-- The loop that enlarges the file. -/
theorem ends_enlarge {H : SfsPanic → Prop} (hi : i ∈ I) {m : Nat} (hcore : Core I sfs)
    (hsin : sfs.inodes i = some sin) (hmapped : Mapped (view sfs i))
    (hn : n = (view sfs i).din.blocks + m) (hk : k = (view sfs i).din.blocks)
    (hrange : 1036 < n → needed (view sfs i) 1036 ≤ sfs.super.unused_blocks → H .bmapRange) :
    (sfs_truncfile_enlarge i m k).Ends sfs
      (fun _ sfs' => Grown I i sfs sfs' ∧ (view sfs' i).din.blocks = n ∧
        (view sfs' i).content = (view sfs i).content)
      (fun e sfs' => e = .noMem ∧ Stuck I i n sfs sfs') H := by
  induction m generalizing sfs sin k with
  | zero =>
      unfold sfs_truncfile_enlarge
      rw [Routine.ends_pure]
      exact ⟨Grown.refl hcore hmapped, by omega, rfl⟩
  | succ m ih =>
      have hload := ends_load (k := k) (H := H) hcore hi hsin hmapped (by omega)
        fun _ hfar => hrange (by omega) ((Grown.refl hcore hmapped).fits_full (by omega))
      unfold sfs_truncfile_enlarge
      apply hload.seq
      · intro b sfs₁ h₁
        obtain ⟨sin₁, hsin₁⟩ := h₁.grown.kept.exists_sin hsin
        have hblocks := h₁.blocks
        have hrest : 1036 < n → needed (view sfs₁ i) 1036 ≤ sfs₁.super.unused_blocks →
            H .bmapRange := by
          intro hfar hfits
          have hneed := h₁.grown.need 1036 h₁.grown.mapped.blocks_le
          exact hrange hfar (by omega)
        apply (ih h₁.grown.core hsin₁ h₁.grown.mapped (by omega) (by omega) hrest).mono
        · rintro _ sfs' ⟨hgrown, hlast, hcontent⟩
          exact ⟨h₁.grown.trans hgrown, hlast, hcontent.trans h₁.content⟩
        · rintro e sfs' ⟨rfl, hstuck⟩
          have hle := hstuck.grown.stretched.blocks
          exact ⟨rfl, h₁.grown.trans hstuck.grown, hstuck.content.trans h₁.content, hstuck.lt,
            hstuck.below, fun heq => by omega, hstuck.unused⟩
        · exact fun _ h => h
      · rintro e sfs' ⟨rfl, hidle, hlast, hbelow, hunused⟩
        have hview := hidle.view_eq hcore hi
        refine ⟨rfl, hidle.grown hcore hi hmapped, ?_, ?_, ?_, fun _ => hidle, ?_⟩
        · rw [hview]
        · rw [hview]
          omega
        · rw [hview, ← hlast]
          exact hbelow
        · rw [hview, hidle.super, ← hlast]
          exact hunused
      · exact fun _ h => h

/-! ### `sfs_truncfile` -/

/-- The file has the size `len`, and the blocks for it. -/
structure Resized (I : Finset Nat) (i len : Nat) (sfs sfs' : Sfs) : Prop where
  core : Core I sfs'
  kept : Kept I i sfs sfs'
  mapped : Mapped (view sfs' i)
  size : (view sfs' i).din.size = len
  blocks : (view sfs' i).din.blocks = (len + 4095) / 4096
  fits : needed (view sfs i) ((len + 4095) / 4096) ≤ sfs.super.unused_blocks
  type : (view sfs' i).din.type = (view sfs i).din.type
  nlinks : (view sfs' i).din.nlinks = (view sfs i).din.nlinks
  dirty : (view sfs' i).dirty = true
  content : ∀ pos, (view sfs' i).content pos =
    if (len + 4095) / 4096 ≤ pos / 4096 ∧ pos / 4096 < (view sfs i).din.blocks then 0
    else (view sfs i).content pos
  behind : ∀ k, (len + 4095) / 4096 ≤ k → (view sfs' i).entry k =
    if k < (view sfs i).din.blocks then 0 else (view sfs i).entry k

/-- The two loops of `sfs_truncfile`. -/
theorem ends_truncfile_loops {H : SfsPanic → Prop} (hcore : Core I sfs) (hi : i ∈ I)
    (hsin : sfs.inodes i = some sin) (hmapped : Mapped (view sfs i))
    (hrange : (view sfs i).din.blocks < n → 1036 < n →
      needed (view sfs i) 1036 ≤ sfs.super.unused_blocks → H .bmapRange) :
    (sfs_truncfile_loops i sin.din.blocks n).Ends sfs
      (fun _ sfs' => (view sfs i).din.blocks ≤ n ∧ Grown I i sfs sfs' ∧
          (view sfs' i).din.blocks = n ∧ (view sfs' i).content = (view sfs i).content ∨
        n < (view sfs i).din.blocks ∧ Shrunk I i n sfs sfs')
      (fun e sfs' => e = .noMem ∧ (view sfs i).din.blocks < n ∧ Stuck I i n sfs sfs') H := by
  have hblocks : sin.din.blocks = (view sfs i).din.blocks := by
    rw [view_eq hsin]
  unfold sfs_truncfile_loops
  rw [hblocks, Routine.ends_ite]
  by_cases hlt : (view sfs i).din.blocks < n
  · rw [if_pos hlt]
    apply (ends_enlarge hi hcore hsin hmapped (n := n) (by omega) rfl (hrange hlt)).mono
    · rintro _ sfs' ⟨hgrown, hlast, hcontent⟩
      exact Or.inl ⟨by omega, hgrown, hlast, hcontent⟩
    · rintro e sfs' ⟨rfl, hstuck⟩
      exact ⟨rfl, hlt, hstuck⟩
    · exact fun _ h => h
  · rw [if_neg hlt, Routine.ends_ite]
    by_cases hgt : n < (view sfs i).din.blocks
    · rw [if_pos hgt]
      apply (ends_reduce hi hcore hsin hmapped (n := n) (by omega)).mono
      · intro _ sfs' hshrunk
        exact Or.inr ⟨hgt, hshrunk⟩
      · exact fun _ _ h => h.elim
      · exact fun _ h => h.elim
    · rw [if_neg hgt, Routine.ends_pure]
      exact Or.inl ⟨by omega, Grown.refl hcore hmapped, by omega, rfl⟩

/-- `sfs_truncfile` on a length that is not the size. -/
theorem ends_truncfile_resize {H : SfsPanic → Prop} {len : Nat} (hcore : Core I sfs)
    (hi : i ∈ I) (hsin : sfs.inodes i = some sin) (hmapped : Mapped (view sfs i))
    (hrange : (view sfs i).din.blocks < (len + 4095) / 4096 → 1036 < (len + 4095) / 4096 →
      needed (view sfs i) 1036 ≤ sfs.super.unused_blocks → H .bmapRange) :
    (sfs_truncfile_resize i len ((len + 4095) / 4096)).Ends sfs
      (fun _ sfs' => Resized I i len sfs sfs')
      (fun e sfs' => e = .noMem ∧ (view sfs i).din.blocks < (len + 4095) / 4096 ∧
        Stuck I i ((len + 4095) / 4096) sfs sfs') H := by
  unfold sfs_truncfile_resize
  rw [Routine.ends_bind, ends_sfsInode hsin]
  -- The two loops come first. `h₁` says which of them ran: the file has grown to the number of
  -- blocks, or shrunk to it.
  apply (ends_truncfile_loops hcore hi hsin hmapped hrange).seq
  · intro _ sfs₁ h₁
    have hkept : Kept I i sfs sfs₁ := by
      rcases h₁ with ⟨-, hgrown, -⟩ | ⟨-, hshrunk⟩
      · exact hgrown.kept
      · exact hshrunk.kept
    have hcore₁ : Core I sfs₁ := by
      rcases h₁ with ⟨-, hgrown, -⟩ | ⟨-, hshrunk⟩
      · exact hgrown.core
      · exact hshrunk.core
    have hmapped₁ : Mapped (view sfs₁ i) := by
      rcases h₁ with ⟨-, hgrown, -⟩ | ⟨-, hshrunk⟩
      · exact hgrown.mapped
      · exact hshrunk.mapped
    have hblocks₁ : (view sfs₁ i).din.blocks = (len + 4095) / 4096 := by
      rcases h₁ with ⟨-, -, hlast, -⟩ | ⟨-, hshrunk⟩
      · exact hlast
      · rw [hshrunk.din]
    obtain ⟨sin₁, hsin₁⟩ := hkept.exists_sin hsin
    have hdin : (view sfs₁ i).din = sin₁.din := by rw [view_eq hsin₁]
    have hview := view_withDin { sin₁.din with size := len } true hsin₁ rfl rfl
    -- `assert(din->blocks == tblks)`, then the size.
    rw [Routine.ends_bind, ends_sfsInode hsin₁, Routine.ends_bind, Routine.ends_assert,
      if_pos (by rw [← hdin]; exact hblocks₁), ends_setDin hsin₁]
    refine ⟨hcore₁.withDin hsin₁ rfl rfl, hkept.trans (Kept.withDin hcore₁ hsin₁ rfl rfl),
      ?_, ?_, ?_, ?_, ?_, ?_, ?_, ?_, ?_⟩
    · rw [hview]
      intro k hk
      replace hk : k < sin₁.din.blocks := hk
      rw [← hdin] at hk
      exact hmapped₁ k hk
    · rw [hview]
    · rw [hview]
      show sin₁.din.blocks = _
      rw [← hdin]
      exact hblocks₁
    · rcases h₁ with ⟨-, hgrown, -⟩ | ⟨hlt, -⟩
      · rw [← hblocks₁]
        exact hgrown.fits
      · rw [needed_of_le (le_of_lt hlt)]
        exact Nat.zero_le _
    · rw [hview]
      show sin₁.din.type = _
      rw [← hdin]
      rcases h₁ with ⟨-, hgrown, -⟩ | ⟨-, hshrunk⟩
      · rw [hgrown.stretched.din]
      · rw [hshrunk.din]
    · rw [hview]
      show sin₁.din.nlinks = _
      rw [← hdin]
      rcases h₁ with ⟨-, hgrown, -⟩ | ⟨-, hshrunk⟩
      · rw [hgrown.stretched.din]
      · rw [hshrunk.din]
    · rw [hview]
      exact Bool.or_true _
    -- The bytes: growing changes none, and shrinking clears those of the blocks that went.
    · intro pos
      rw [hview]
      show (view sfs₁ i).content pos = _
      rcases h₁ with ⟨hle, -, -, hcontent⟩ | ⟨-, hshrunk⟩
      · rw [hcontent, if_neg (by omega)]
      · exact hshrunk.content pos
    · intro k hk
      rw [hview]
      show (view sfs₁ i).entry k = _
      rcases h₁ with ⟨hle, hgrown, -⟩ | ⟨-, hshrunk⟩
      · rw [hgrown.stretched.entry k (by omega), if_neg (by omega)]
      · rw [hshrunk.entry]
        split_ifs <;> first | rfl | omega
  · exact fun _ _ h => h
  · exact fun _ h => h

/-- `sfs_truncfile` sets the size. It fails when the length is out of range, or when there are
not enough free blocks. -/
theorem ends_truncfile {H : SfsPanic → Prop} {len : Int} (hcore : Core I sfs) (hi : i ∈ I)
    (hsin : sfs.inodes i = some sin) (hmapped : Mapped (view sfs i))
    (hsame : (view sfs i).din.size = len.toNat →
      (view sfs i).din.blocks ≠ (len.toNat + 4095) / 4096 → H .truncBlocks)
    (hrange : (view sfs i).din.blocks < (len.toNat + 4095) / 4096 →
      1036 < (len.toNat + 4095) / 4096 →
      needed (view sfs i) 1036 ≤ sfs.super.unused_blocks → H .bmapRange) :
    (sfs_truncfile i len).Ends sfs
      (fun _ sfs' => 0 ≤ len ∧ len ≤ (SFS_MAX_FILE_SIZE : Int) ∧
        ((view sfs i).din.size = len.toNat ∧ sfs' = sfs ∧
            (view sfs i).din.blocks = (len.toNat + 4095) / 4096 ∨
          (view sfs i).din.size ≠ len.toNat ∧ Resized I i len.toNat sfs sfs'))
      (fun e sfs' => e = .inval ∧ sfs' = sfs ∧ (len < 0 ∨ (SFS_MAX_FILE_SIZE : Int) < len) ∨
        e = .noMem ∧ (view sfs i).din.size ≠ len.toNat ∧
          (view sfs i).din.blocks < (len.toNat + 4095) / 4096 ∧
          Stuck I i ((len.toNat + 4095) / 4096) sfs sfs') H := by
  have hdin : (view sfs i).din = sin.din := by rw [view_eq hsin]
  unfold sfs_truncfile
  rw [Routine.ends_ite]
  by_cases hbad : len < 0 ∨ (SFS_MAX_FILE_SIZE : Int) < len
  · rw [if_pos hbad, Routine.ends_fail]
    exact Or.inl ⟨rfl, rfl, hbad⟩
  · rw [if_neg hbad, Routine.ends_bind, ends_sfsInode hsin, Routine.ends_ite, ← hdin]
    by_cases hsize : (view sfs i).din.size = len.toNat
    · rw [if_pos hsize, Routine.ends_assert]
      by_cases hblocks : (len.toNat + 4095) / 4096 = (view sfs i).din.blocks
      · rw [if_pos hblocks]
        exact ⟨by omega, by omega, Or.inl ⟨hsize, rfl, hblocks.symm⟩⟩
      · rw [if_neg hblocks]
        exact hsame hsize fun h => hblocks h.symm
    · rw [if_neg hsize]
      apply (ends_truncfile_resize hcore hi hsin hmapped hrange).mono
      · intro _ sfs' hresized
        exact ⟨by omega, by omega, Or.inr ⟨hsize, hresized⟩⟩
      · rintro e sfs' ⟨rfl, hlt, hstuck⟩
        exact Or.inr ⟨rfl, hsize, hlt, hstuck⟩
      · exact fun _ h => h

end Ucore.Proofs.Fs
