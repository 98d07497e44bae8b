import Ucore.Proofs.Fs.Layout

/-!
# `Ucore.Proofs.Fs.Block`: how the block functions end

The block I/O of `sfs_io.c` on a block of the volume, and the allocation and the freeing of
a block. `Took` and `Gave` say what these have changed.

Every statement has the form `x.Ends sfs Q E P` (`Ucore.Lib.Routine`): the function `x`, started in
`sfs`, returns a value for which `Q` holds, or an error code for which `E` holds, or panics for a
reason in `P`. All of these functions panic for no reason, provided that the block is one of the
volume and, but for the superblock, in use.

## Main results

* `ends_rblock_nolock`, `ends_wblock_nolock`: a whole block. The test of `sfs_block_inuse` in front
  of a write is passed because a block that has a place is in use.
* `ends_rbuf`, `ends_wbuf`: a part of a block. A write of a part reads the block first, so the rest
  of the block stays as it is.
* `ends_block_alloc`: an allocation takes a free block, clears its bytes and counts it, or there is
  none. The assertion that the block was not in use holds because of `Pool`.
* `ends_block_free`: a block in use is given back.
* `Took.pool`, `Gave.pool`: the number of free blocks in the superblock stays right.

The disk has fewer than `2 ^ 20` blocks (`Core.fits`), so that the product of a block number and
`SFS_BLKSIZE`, a `uint32_t` in the source, does not wrap.
-/

set_option autoImplicit false

namespace Ucore.Proofs.Fs

open Ucore.Lib Ucore.Fs

variable {sfs sfs' : Sfs} {E : Errno → Sfs → Prop} {H : SfsPanic → Prop} {i b : Nat}

/-! ### Pointers and block I/O -/

/-- An inode in memory is read. -/
theorem ends_sfsInode {Q : SfsInode → Sfs → Prop} {sin : SfsInode}
    (h : sfs.inodes i = some sin) : (sfsInode i).Ends sfs Q E H ↔ Q sin sfs := by
  unfold Routine.Ends sfsInode
  rw [h]

/-- An inode in memory is changed. -/
theorem ends_setSfsInode {Q : Unit → Sfs → Prop} {f : SfsInode → SfsInode} {sin : SfsInode}
    (h : sfs.inodes i = some sin) : (setSfsInode i f).Ends sfs Q E H ↔
      Q () { sfs with inodes := Function.update sfs.inodes i (some (f sin)) } := by
  unfold setSfsInode
  rw [Routine.ends_modify, h]
  rfl

/-- The volume with another disk inode in memory. -/
def withDin (sfs : Sfs) (i : Nat) (sin : SfsInode) (din : SfsDiskInode) (dirty : Bool) : Sfs :=
  { sfs with
    inodes := Function.update sfs.inodes i
      (some { sin with din := din, dirty := sin.dirty || dirty }) }

/-- The disk part of an inode in memory is changed, and marked to be written. -/
theorem ends_setDin {Q : Unit → Sfs → Prop} {f : SfsDiskInode → SfsDiskInode} {dirty : Bool}
    {sin : SfsInode} (h : sfs.inodes i = some sin) :
    (setDin i f dirty).Ends sfs Q E H ↔ Q () (withDin sfs i sin (f sin.din) dirty) :=
  ends_setSfsInode h

/-- An assertion that holds. -/
theorem ends_check {Q : Unit → Sfs → Prop} {h : SfsPanic} {c : Bool} (hc : c = true) :
    (check h c).Ends sfs Q E H ↔ Q () sfs := by
  unfold check
  rw [Routine.ends_assert, if_pos hc]

/-- A block of the volume is read. -/
theorem ends_rblock_nolock {Q : Bytes → Sfs → Prop} (hb : b ≠ 0) (hlt : b < sfs.super.blocks) :
    (sfs_rblock_nolock b true).Ends sfs Q E H ↔ Q (sfs.dev b) sfs := by
  unfold sfs_rblock_nolock sfs_rwblock_check
  rw [Routine.ends_bind, Routine.ends_assert, if_pos ⟨Or.inl hb, hlt⟩, Routine.ends_read]

/-- A block of the volume is written, the superblock only without the check. -/
theorem ends_wblock_nolock {Q : Unit → Sfs → Prop} {buf : Bytes} {c : Bool}
    (hb : b ≠ 0 ∨ c = false) (hlt : b < sfs.super.blocks) :
    (sfs_wblock_nolock buf b c).Ends sfs Q E H ↔
      Q () { sfs with dev := Function.update sfs.dev b buf } := by
  unfold sfs_wblock_nolock sfs_rwblock_check
  rw [Routine.ends_bind, Routine.ends_assert, if_pos ⟨hb, hlt⟩, Routine.ends_modify]

/-- A whole block is read. -/
theorem ends_rblock {Q : List UInt8 → Sfs → Prop} (hb : b ≠ 0) (hlt : b < sfs.super.blocks) :
    (sfs_rblock b).Ends sfs Q E H ↔ Q ((sfs.dev b).slice 0 4096) sfs := by
  unfold sfs_rblock
  rw [Routine.ends_bind, ends_rblock_nolock hb hlt, Routine.ends_pure]

/-- A part of a block is read. -/
theorem ends_rbuf {Q : List UInt8 → Sfs → Prop} {len off : Nat} (hb : b ≠ 0)
    (hlt : b < sfs.super.blocks) (hoff : off < 4096) (hlen : off + len ≤ 4096) :
    (sfs_rbuf len b off).Ends sfs Q E H ↔ Q ((sfs.dev b).slice off len) sfs := by
  unfold sfs_rbuf
  rw [Routine.ends_bind, Routine.ends_assert, if_pos ⟨hoff, hlen⟩, Routine.ends_bind,
    ends_rblock_nolock hb hlt, Routine.ends_pure]

/-- A part of a block is written, and the rest of the block stays. -/
theorem ends_wbuf {Q : Unit → Sfs → Prop} {buf : List UInt8} {off : Nat} (hb : b ≠ 0)
    (hlt : b < sfs.super.blocks) (hoff : off < 4096) (hlen : off + buf.length ≤ 4096) :
    (sfs_wbuf buf b off).Ends sfs Q E H ↔
      Q () { sfs with dev := Function.update sfs.dev b ((sfs.dev b).overlay off buf) } := by
  unfold sfs_wbuf
  rw [Routine.ends_bind, Routine.ends_assert, if_pos ⟨hoff, hlen⟩, Routine.ends_bind,
    ends_rblock_nolock hb hlt, ends_wblock_nolock (Or.inl hb) hlt]

/-- A function that reads the free map. -/
theorem ends_onBitmap {α : Type} {Q : α → Sfs → Prop} {f : Bitmap → Except Unit α} {a : α}
    (h : f sfs.freemap = .ok a) : (onBitmap f).Ends sfs Q E H ↔ Q a sfs := by
  unfold Routine.Ends onBitmap
  rw [h]

/-- A block is in use when its bit in the free map is 0. -/
theorem ends_block_inuse {Q : Bool → Sfs → Prop} (hbits : sfs.super.blocks ≤ sfs.freemap.nbits)
    (hb : b ≠ 0) (hlt : b < sfs.super.blocks) :
    (sfs_block_inuse b).Ends sfs Q E H ↔ Q (!sfs.freemap.isFree b) sfs := by
  unfold sfs_block_inuse
  rw [Routine.ends_bind, Routine.ends_assert, if_pos ⟨hb, hlt⟩, Routine.ends_bind,
    ends_onBitmap (bitmap_test_eq (lt_of_lt_of_le hlt hbits)), Routine.ends_pure]

/-! ### Allocation -/

/-- The free block `b` has been taken and cleared. -/
structure Took (sfs : Sfs) (b : Nat) (sfs' : Sfs) : Prop where
  free : sfs.freemap.isFree b = true
  ne_zero : b ≠ 0
  lt : b < sfs.super.blocks
  unused : 0 < sfs.super.unused_blocks
  isFree : sfs'.freemap.isFree = Function.update sfs.freemap.isFree b false
  nbits : sfs'.freemap.nbits = sfs.freemap.nbits
  nwords : sfs'.freemap.nwords = sfs.freemap.nwords
  super : sfs'.super =
    { sfs.super with unused_blocks := sfs.super.unused_blocks - 1 }
  superDirty : sfs'.super_dirty = true
  list : sfs'.inode_list = sfs.inode_list
  inodes : sfs'.inodes = sfs.inodes
  dev : sfs'.dev = Function.update sfs.dev b fun _ => 0

/-- The block `b` has been given back. -/
structure Gave (sfs : Sfs) (b : Nat) (sfs' : Sfs) : Prop where
  isFree : sfs'.freemap.isFree = Function.update sfs.freemap.isFree b true
  nbits : sfs'.freemap.nbits = sfs.freemap.nbits
  nwords : sfs'.freemap.nwords = sfs.freemap.nwords
  super : sfs'.super =
    { sfs.super with unused_blocks := sfs.super.unused_blocks + 1 }
  superDirty : sfs'.super_dirty = true
  list : sfs'.inode_list = sfs.inode_list
  inodes : sfs'.inodes = sfs.inodes
  dev : sfs'.dev = sfs.dev

/-- The allocator is sound behind an allocation. -/
theorem Took.pool (h : Took sfs b sfs') (hpool : Pool sfs) : Pool sfs' where
  zero := by
    rw [h.isFree, Function.update_of_ne (Ne.symm h.ne_zero)]
    exact hpool.zero
  bound := by
    intro c hc
    rw [h.isFree] at hc
    rw [h.super]
    by_cases hcb : c = b
    · rw [hcb]
      exact h.lt
    · rw [Function.update_of_ne hcb] at hc
      exact hpool.bound c hc
  count := by
    have hcount := freeCount_take h.free h.lt
    rw [h.super, h.isFree]
    show sfs.super.unused_blocks - 1 = _
    rw [hpool.count]
    show _ = freeCount (Function.update sfs.freemap.isFree b false) sfs.super.blocks
    omega
  bits := by
    rw [h.nbits, h.super]
    exact hpool.bits
  words := by
    rw [h.nbits, h.nwords]
    exact hpool.words

/-- The allocator is sound when a block in use has been given back. -/
theorem Gave.pool (h : Gave sfs b sfs') (hpool : Pool sfs) (hb : b ≠ 0)
    (hlt : b < sfs.super.blocks) (hused : sfs.freemap.isFree b = false) : Pool sfs' where
  zero := by
    rw [h.isFree, Function.update_of_ne (Ne.symm hb)]
    exact hpool.zero
  bound := by
    intro c hc
    rw [h.isFree] at hc
    rw [h.super]
    by_cases hcb : c = b
    · rw [hcb]
      exact hlt
    · rw [Function.update_of_ne hcb] at hc
      exact hpool.bound c hc
  count := by
    rw [h.super, h.isFree]
    show sfs.super.unused_blocks + 1 = _
    rw [hpool.count]
    exact (freeCount_give hused hlt).symm
  bits := by
    rw [h.nbits, h.super]
    exact hpool.bits
  words := by
    rw [h.nbits, h.nwords]
    exact hpool.words

/-- An allocation takes a free block, and fails only when there is none. -/
theorem ends_block_alloc (hpool : Pool sfs) :
    sfs_block_alloc.Ends sfs (fun b sfs' => Took sfs b sfs')
      (fun e sfs' => e = .noMem ∧ sfs' = sfs ∧ sfs.super.unused_blocks = 0) fun _ => False := by
  obtain ⟨r, hr, hres⟩ := bitmap_alloc_eq sfs.freemap
  unfold sfs_block_alloc
  rw [Routine.ends_bind, ends_onBitmap hr]
  cases hres with
  | none hnone =>
      show _ ∧ _ ∧ _
      refine ⟨rfl, rfl, ?_⟩
      rw [hpool.count]
      by_contra hne
      obtain ⟨b, hlt, hfree⟩ := freeCount_pos_iff.mp (Nat.pos_of_ne_zero hne)
      have hbits := hpool.bits
      have hwords := hpool.words
      rw [hnone b (Nat.zero_le _) (by omega)] at hfree
      cases hfree
  | some b freemap hlt hfree hfirst hnbits hnwords hafter =>
      have hb0 : b ≠ 0 := by
        rintro rfl
        rw [hpool.zero] at hfree
        cases hfree
      have hblocks : b < sfs.super.blocks := hpool.bound b hfree
      have hunused : 0 < sfs.super.unused_blocks := by
        rw [hpool.count]
        exact freeCount_pos_iff.mpr ⟨b, hblocks, hfree⟩
      have hused : freemap.isFree b = false := by
        rw [hafter, Function.update_self]
      simp only [Routine.ends_bind, Routine.ends_modify, Routine.ends_assert, if_pos hunused]
      have hbits : sfs.super.blocks ≤ freemap.nbits := by
        rw [hnbits]
        exact hpool.bits
      refine (ends_block_inuse ?_ hb0 ?_).mpr ?_
      · exact hbits
      · exact hblocks
      rw [ends_check (by rw [hused]; rfl)]
      refine (ends_wblock_nolock (Or.inl hb0) ?_).mpr ?_
      · exact hblocks
      exact ⟨hfree, hb0, hblocks, hunused, hafter, hnbits, hnwords, rfl, rfl, rfl, rfl, rfl⟩

/-- A block in use is freed. -/
theorem ends_block_free (hpool : Pool sfs) (hb : b ≠ 0) (hlt : b < sfs.super.blocks)
    (hused : sfs.freemap.isFree b = false) :
    (sfs_block_free b).Ends sfs (fun _ sfs' => Gave sfs b sfs') (fun _ _ => False)
      fun _ => False := by
  obtain ⟨freemap, hfree, hnbits, hnwords, hafter⟩ :=
    bitmap_free_eq (lt_of_lt_of_le hlt hpool.bits) hused
  unfold sfs_block_free
  rw [Routine.ends_bind, ends_block_inuse hpool.bits hb hlt, Routine.ends_bind,
    ends_check (by rw [hused]; rfl), Routine.ends_bind, ends_onBitmap hfree, Routine.ends_modify]
  exact ⟨hafter, hnbits, hnwords, rfl, rfl, rfl, rfl, rfl⟩

end Ucore.Proofs.Fs
