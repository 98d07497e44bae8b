import Ucore.Proofs.Fs.Fitting

/-!
# `Ucore.Proofs.Fs.Marked`: what the disk has of an inode that is not to be written

`sfs_bmap_load_nolock` counts `din->blocks` up and does not set `dirty`. It is set by the entry of a
direct block, by a new indirect block, and by a new size. So a block that comes through an indirect
block that is there already, in a call that leaves the size as it is, is counted in memory only
(`Silent`). Two kinds of call do this.

* A seek behind the end that runs out of blocks has got some, and does not come to the size.
* A transfer that goes over the last block of a file and not over its end. A file has an end behind
  its last block when an earlier write at such a position has found no block.

`Unmarked` are these calls, as conditions on the state in front. `Marked` is what a run without them
keeps of each file: an inode that is not marked is on the disk as it is in memory.

## Main result

`sync_restores`: in every state of a run without an unmarked call, what is not marked is on the
disk. Behind a `sfs_sync` the volume can be mounted again, with the same superblock and free blocks,
and with the inode, the block map and the bytes of every file and directory.
-/

set_option autoImplicit false

namespace Ucore.Proofs.Fs

open Ucore.Lib Ucore.Fs Ucore.Proofs.Tools

variable {K : Type} {I : Finset Nat} {i : Nat} {k : K} {t t' t₀ : Files K} {v w : FileView}
  {sfs sfs' : Sfs}

/-! ### One file -/

/-- An inode that is not marked is on the disk, and no block is left behind the last one. -/
structure Marked (v : FileView) : Prop where
  disk : v.dirty = false → v.disk = v.din
  rest : v.din.type = SFS_TYPE_FILE → ∀ k, v.din.blocks ≤ k → v.entry k = 0

/-- The next block of the file is not marked: the inode is not, and the block comes through an
indirect block that is there. -/
def Silent (v : FileView) : Prop := v.dirty = false ∧ 12 ≤ v.din.blocks ∧ v.din.indirect ≠ 0

/-- Writing back and dropping keep a file that is marked. -/
theorem Marked.settled (h : Marked v) (hs : Settled v w) : Marked w := by
  cases hs with
  | same => exact h
  | flushed _ => exact ⟨fun _ => rfl, h.rest⟩
  | dropped hd =>
      have hsame : v.dropped = v := by
        have hdisk := h.disk hd
        cases v
        simp_all [FileView.dropped]
      rw [hsame]
      exact h

/-- The inode of a marked file stays when it is written back or dropped. -/
theorem Marked.din_settled (h : Marked v) (hs : Settled v w) : w.din = v.din := by
  cases hs with
  | same => rfl
  | flushed _ => rfl
  | dropped hd => exact h.disk hd

/-- A truncation marks the file. -/
theorem Marked.resized {len : Nat} (h : Marked (view sfs i))
    (htype : (view sfs i).din.type = SFS_TYPE_FILE) (hr : Resized I i len sfs sfs') :
    Marked (view sfs' i) where
  disk := fun hd => by
    rw [hr.dirty] at hd
    cases hd
  rest := by
    intro _ k hk
    rw [hr.blocks] at hk
    rw [hr.behind k hk]
    split_ifs with hlt
    · rfl
    · exact h.rest htype k (Nat.le_of_not_lt hlt)

/-- A file that has only been enlarged is marked, unless a block has been counted without a mark. -/
theorem Marked.enlarged (h : Marked v) (htype : v.din.type = SFS_TYPE_FILE) (he : Enlarged v w)
    (hsilent : w.dirty = false → Silent v → w.din.blocks = v.din.blocks) : Marked w where
  disk := by
    intro hd
    have hclean : v.dirty = false := by
      by_contra hdirty
      rw [he.dirty ((Bool.not_eq_false _).mp hdirty)] at hd
      cases hd
    have hblocks : w.din.blocks = v.din.blocks := by
      by_contra hne
      rcases he.grew hne with hmarked | hentry | ⟨hfar, hind⟩
      · rw [hd] at hmarked
        cases hmarked
      · exact hentry (h.rest htype _ (le_refl _))
      · exact hne (hsilent hd ⟨hclean, hfar, hind⟩)
    rw [he.disk, h.disk hclean, he.clean hd, hblocks]
  rest := by
    intro _ k hk
    rw [he.entry k hk]
    exact h.rest htype k (he.blocks.trans hk)

/-! ### Calls -/

/-- A transfer goes over the last block of the file and not over its end, and gets the block. -/
def GoesUnmarked (t : Files K) (file : File) (write : Bool) (len : Nat) : Prop :=
  (view t.sfs file.node).din.type = SFS_TYPE_FILE ∧ Silent (view t.sfs file.node) ∧
    ¬ NoBlock t.sfs file.node ∧
    IoGoes (view t.sfs file.node).din.size write file.pos len ∧
    4096 * (view t.sfs file.node).din.blocks <
      ioEnd (view t.sfs file.node).din.size write file.pos len ∧
    ioEnd (view t.sfs file.node).din.size write file.pos len ≤ (view t.sfs file.node).din.size

/-- The call counts a block of a file and does not mark the file. -/
def Unmarked (t : Files K) : Call K → Prop
  | .seek k pos whence => ∃ file, t.files k = some file ∧ Silent (view t.sfs file.node) ∧
      RunsOut t file pos whence
  | .read k buf => ∃ file, t.files k = some file ∧ GoesUnmarked t file false buf.length
  | .write k buf => ∃ file, t.files k = some file ∧ GoesUnmarked t file true buf.length
  | _ => False

/-- A transfer that does not mark a file has not counted a block. -/
theorem Transferred.blocks_of_clean {write : Bool} {file : File} {buf : List UInt8} {r : IoResult}
    (hok : FileOk I (view t.sfs file.node))
    (htype : (view t.sfs file.node).din.type = SFS_TYPE_FILE)
    (hgoes : IoGoes (view t.sfs file.node).din.size write file.pos buf.length)
    (ht : Transferred I file.node write file.pos.toNat
      (ioEnd (view t.sfs file.node).din.size write file.pos buf.length) buf t.sfs r sfs')
    (hnot : ¬ GoesUnmarked t file write buf.length) (hclean : (view sfs' file.node).dirty = false)
    (hsilent : Silent (view t.sfs file.node)) :
    (view sfs' file.node).din.blocks = (view t.sfs file.node).din.blocks := by
  by_contra hne
  have hblocks := ht.blocks
  have hreach := hok.reach htype
  have hle : file.pos.toNat + r.alen ≤ (view t.sfs file.node).din.size := by
    by_contra hgt
    rw [ht.marked (by omega)] at hclean
    cases hclean
  have hzero : r.alen ≠ 0 := by
    intro hzero
    rw [if_pos hzero] at hblocks
    exact hne hblocks
  rw [if_neg hzero] at hblocks
  have hover : 4096 * (view t.sfs file.node).din.blocks < file.pos.toNat + r.alen := by omega
  -- the end of the file lies in the block behind the last one, so the transfer has come to its end
  rcases ht.ret with ⟨-, heq⟩ | ⟨-, -, hzero' | hdvd, -⟩
  · exact hnot ⟨htype, hsilent, ht.had_block (by omega), hgoes, by omega, by omega⟩
  · exact hzero hzero'
  · omega

/-- A call that counts no block without a mark leaves files that are marked. -/
theorem Marked.effect {call : Call K} (h : Marked (view t.sfs i)) (hok : FilesOk I t)
    (hi : i ∈ I) (hnot : ¬ Unmarked t call) (he : Effect I i t t' call) :
    Marked (view t'.sfs i) := by
  cases he with
  | settled hs => exact h.settled hs
  | read hk hnode htype hgoes ht =>
      subst hnode
      exact h.enlarged htype ht.enlarged fun hd hsilent =>
        ht.blocks_of_clean (hok.file hi) htype hgoes (fun hgo => hnot ⟨_, hk, hgo⟩) hd hsilent
  | write hk _ hnode htype hgoes ht =>
      subst hnode
      exact h.enlarged htype ht.enlarged fun hd hsilent =>
        ht.blocks_of_clean (hok.file hi) htype hgoes (fun hgo => hnot ⟨_, hk, hgo⟩) hd hsilent
  | cut hs htype hr => exact (h.settled hs).resized htype hr
  | enlarged hk hnode htype hlen hlt hmax hr => exact h.resized htype hr
  | stuck hk hnode htype hlen hlt hmax hs =>
      subst hnode
      refine h.enlarged htype hs.grown.stretched.enlarged fun _ hsilent => ?_
      by_contra hne
      have hle := hs.grown.stretched.blocks
      refine hnot ⟨_, hk, hsilent, htype, _, hlen, hlt, hmax, fun hnone => ?_,
        hs.lt_needed_of_lt (lt_min hs.lt hs.below)⟩
      exact hnone.not_fits (by omega) hs.grown.fits

/-- The files of a volume that has just been mounted are marked. -/
theorem Fresh.marked (h : Fresh I t) (hi : i ∈ I) : Marked (view t.sfs i) :=
  ⟨fun _ => h.disk i hi, h.rest i hi⟩

section
variable [DecidableEq K]

/-- **What is not marked is on the disk.** Take any calls of any processes on a volume that has been
mounted, none of which counts a block of a file without a mark. In each state, an inode in memory
that is not marked is as it is on the disk, and so are the superblock and the free map. When
`sfs_sync` has come to its end, the device can be mounted again, with the same superblock, the same
free blocks, and the same inode, block map and bytes of each file and directory. -/
theorem sync_restores (h : Fresh I t₀)
    (hrun : Reaches I (fun t call => ¬ Unmarked t call) t₀ t) :
    (∀ i sin, t.sfs.inodes i = some sin → sin.dirty = false →
      SfsDiskInode.decode (t.sfs.dev i) = sin.din) ∧
    (t.sfs.super_dirty = false → Saved t.sfs) ∧
    (onVolume sfs_sync : FilesM K Unit).Ends t
      (fun _ t' => (∀ i ∈ I, (view t'.sfs i).din = (view t.sfs i).din ∧
          (view t'.sfs i).entry = (view t.sfs i).entry ∧
          (view t'.sfs i).content = (view t.sfs i).content) ∧
        ∀ d_blocks, t'.sfs.super.blocks ≤ d_blocks →
          ∃ sfs', sfs_do_mount t'.sfs.dev d_blocks 4096 MountMem.enough = .ok (.ok sfs') ∧
            sfs'.super = t'.sfs.super ∧ sfs'.freemap.isFree = t'.sfs.freemap.isFree ∧
            ∀ i ∈ I, (view sfs' i).din = (view t'.sfs i).din ∧
              (view sfs' i).entry = (view t'.sfs i).entry ∧
              (view sfs' i).content = (view t'.sfs i).content)
      (fun _ _ => False) ByRequest := by
  have hok := hrun.ok h.ok
  have hmarked : ∀ i ∈ I, Marked (view t.sfs i) :=
    hrun.keeps h.ok (fun i hi => h.marked hi)
      fun hok hnot i hi he hmarked => hmarked.effect hok hi hnot he
  refine ⟨?_, hok.stored.saved, ?_⟩
  · intro i sin hsin hclean
    have hdisk := (hmarked i (hok.counted.volume.inode i sin hsin).mem).disk
    rw [view_eq hsin] at hdisk
    exact hdisk hclean
  · have hsync : (onVolume sfs_sync : FilesM K Unit).Ends t _ _ (Refuses True True True) := hok.sync
    refine hsync.mono ?_ (fun _ _ h => h) fun _ h => h.byRequest
    rintro _ t' ⟨-, hsynced, hdid⟩
    have hmarked' : ∀ i ∈ I, Marked (view t'.sfs i) :=
      fun i hi => (hmarked i hi).settled (hsynced.settled i hi)
    refine ⟨fun i hi => ⟨(hmarked i hi).din_settled (hsynced.settled i hi),
      (hsynced.settled i hi).entry, (hsynced.settled i hi).content⟩, ?_⟩
    · intro d_blocks hd
      have hcore := hdid.ok.counted.volume.core
      have hre := remounted_remounted hcore.pool
      have hmount :=
        mount_saved hcore.pool hdid.ok.stored hsynced.saved (hcore.map_lt hok.root) hd
      refine ⟨_, hmount, hre.super, hre.isFree, fun i hi => ?_⟩
      have hclean := hsynced.clean i hi
      rw [hre.view_eq (hdid.ok.file hi) hclean]
      exact ⟨(hmarked' i hi).disk hclean, rfl, rfl⟩

end

/-! ### Runs on an image -/

/-- A write to a file of fewer than twelve blocks does not count a block without a mark. -/
theorem not_unmarked_write {buf : List UInt8} (node : Nat)
    (hk : (t.files k).map File.node = some node) (hlow : (view t.sfs node).din.blocks < 12) :
    ¬ Unmarked t (.write k buf) := by
  rintro ⟨file, hk', -, ⟨-, hfar, -⟩, -⟩
  rw [hk', Option.map_some] at hk
  rw [Option.some.inj hk] at hfar
  omega

/-- Nor does a seek. -/
theorem not_unmarked_seek {pos : Int} {whence : Whence} (node : Nat)
    (hk : (t.files k).map File.node = some node) (hlow : (view t.sfs node).din.blocks < 12) :
    ¬ Unmarked t (.seek k pos whence) := by
  rintro ⟨file, hk', ⟨-, hfar, -⟩, -⟩
  rw [hk', Option.map_some] at hk
  rw [Option.some.inj hk] at hfar
  omega

/-- The file `a` is made 13 blocks long and written back, and then a seek goes to the block 15. -/
def seekCalls : List (Call Nat) :=
  [.open 0 (rootPath 97) 2, .seek 0 53248 .set, .fsync 0, .seek 0 61440 .set, .sync]

/-- The path begins at the root. -/
theorem startsIn_seekCalls (hroot : SFS_BLKN_ROOT ∈ I) : ∀ call ∈ seekCalls, StartsIn I call := by
  unfold seekCalls
  refine List.forall_mem_cons.mpr ⟨hroot, ?_⟩
  iterate 4 refine List.forall_mem_cons.mpr ⟨trivial, ?_⟩
  simp

/-- A file has 13 blocks, and it is on the disk. A seek to the block 15 finds one block and fails. The
file has 14 blocks then, and is not marked. Behind `sfs_sync` there are still 13 on the disk, and
13 are found when the device is mounted again. -/
theorem seek_not_marked :
    ∃ t sin sfs', runCalls seekCalls twoFiles = .ok (.ok (), t) ∧
      t.sfs.inodes 5 = some sin ∧ sin.dirty = false ∧ sin.din.blocks = 14 ∧
      (SfsDiskInode.decode (t.sfs.dev 5)).blocks = 13 ∧
      sfs_do_mount t.sfs.dev t.sfs.super.blocks 4096 MountMem.enough = .ok (.ok sfs') ∧
      (view sfs' 5).din.blocks = 13 := by
  obtain ⟨⟨r, t⟩, hrun, hr⟩ := exists_of_map
    (x := runCalls seekCalls twoFiles)
    (f := fun p => (p.1, (p.2.sfs.inodes 5).map (fun sin => (sin.dirty, sin.din.blocks)),
      (SfsDiskInode.decode (p.2.sfs.dev 5)).blocks, p.2.sfs.super_dirty))
    (b := (.ok (), some (false, 14), 13, false)) (by decide +kernel)
  obtain ⟨rfl, hr⟩ := Prod.mk.inj hr
  obtain ⟨hsin, hr⟩ := Prod.mk.inj hr
  obtain ⟨hdisk, hsaved⟩ := Prod.mk.inj hr
  obtain ⟨sin, hinode, hsin⟩ := Option.map_eq_some_iff.mp hsin
  obtain ⟨hdirty, hblocks⟩ := Prod.mk.inj hsin
  obtain ⟨I, es, -, hfresh, -⟩ := mounts_twoFiles
  have hok := hfresh.ok.of_run (startsIn_seekCalls hfresh.ok.root) hrun
  have hcore := hok.counted.volume.core
  exact ⟨t, sin, remounted t.sfs, hrun, hinode, hdirty, hblocks, hdisk,
    mount_saved hcore.pool hok.stored (hok.stored.saved hsaved) (hcore.map_lt hok.root) (le_refl _),
    hdisk⟩

/-- Three bytes are written at the position 8190 of a file and the volume is saved. It is found again
as it was in memory. -/
theorem sync_restores_twoFiles :
    ∃ I t t', Reaches I (fun t call => ¬ Unmarked t call) twoFiles t ∧
      (onVolume sfs_sync : FilesM Nat Unit) t = .ok (.ok (), t') ∧
      (fileBytes t'.sfs 5).drop 8190 = [7, 8, 9] ∧
      (∀ i sin, t.sfs.inodes i = some sin → sin.dirty = false →
        SfsDiskInode.decode (t.sfs.dev i) = sin.din) ∧
      (∀ i ∈ I, (view t'.sfs i).din = (view t.sfs i).din ∧
        (view t'.sfs i).entry = (view t.sfs i).entry ∧
        (view t'.sfs i).content = (view t.sfs i).content) ∧
      ∀ d_blocks, t'.sfs.super.blocks ≤ d_blocks →
        ∃ sfs', sfs_do_mount t'.sfs.dev d_blocks 4096 MountMem.enough = .ok (.ok sfs') ∧
          sfs'.super = t'.sfs.super ∧ sfs'.freemap.isFree = t'.sfs.freemap.isFree ∧
          ∀ i ∈ I, (view sfs' i).din = (view t'.sfs i).din ∧
            (view sfs' i).entry = (view t'.sfs i).entry ∧
            (view sfs' i).content = (view t'.sfs i).content := by
  obtain ⟨I, es, -, hfresh, -⟩ := mounts_twoFiles
  have hstart : Reaches I (fun t call => ¬ Unmarked t call) twoFiles twoFiles := .start
  have hrun := hstart.call (.open 0 (rootPath 97) 2) hfresh.ok.root id (by decide +kernel)
  have hrun' := hrun.call (.seek 0 8190 .set) trivial
    (not_unmarked_seek 5 (by decide +kernel) (by decide +kernel)) (by decide +kernel)
  have hrun'' := hrun'.call (.write 0 [7, 8, 9]) trivial
    (not_unmarked_write 5 (by decide +kernel) (by decide +kernel)) (by decide +kernel)
  obtain ⟨⟨r, t'⟩, hsync, hr⟩ := exists_of_map
    (x := (onVolume sfs_sync : FilesM Nat Unit) ((Call.write 0 [7, 8, 9]).run.behind
      ((Call.seek 0 8190 .set).run.behind ((Call.open 0 (rootPath 97) 2).run.behind twoFiles))))
    (f := fun p => (p.1, (fileBytes p.2.sfs 5).drop 8190)) (b := (.ok (), [7, 8, 9]))
    (by decide +kernel)
  -- from here on the state in front of the call is any state that is reached
  generalize (Call.write 0 [7, 8, 9]).run.behind _ = t at hrun'' hsync
  obtain ⟨rfl, hbytes⟩ := Prod.mk.inj hr
  obtain ⟨hclean, -, hends⟩ := sync_restores hfresh hrun''
  obtain ⟨hsame, hmount⟩ := hends.of_ok hsync
  exact ⟨I, t, t', hrun'', hsync, hbytes, hclean, hsame, hmount⟩

end Ucore.Proofs.Fs
