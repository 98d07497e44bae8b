import Ucore.Proofs.Fs.Calls

/-!
# `Ucore.Proofs.Fs.Mount`: a volume that is mounted again

Behind `sfs_sync` the device holds all that is in memory: `sfs_do_mount` of it succeeds, and the new
volume has the same free blocks and the same files (`mount_saved`, `Remounted`).

The proof goes through the steps of `sfs_do_mount` in their order:

* the superblock is decoded from block 0, and its magic number and its number of blocks pass;
* the free map is read block by block into a fresh bitmap (`init_freemap_eq`), and gives back the
  map that was written (`isFree_rereadMap`);
* the loop that counts the free blocks finds the number in the superblock (`countFree_eq`), which is
  what its assertion compares;
* no inode is in memory, so the file of every number is the one on the disk (`Remounted.view_eq`).

`sync_persists` puts this behind any run of calls: what was written before `sfs_sync` is read after
the mount, byte for byte. That memory is at hand is an argument of `sfs_do_mount` here
(`MountMem.enough`).
-/

set_option autoImplicit false

namespace Ucore.Proofs.Fs

open Ucore.Lib Ucore.Fs

variable {I : Finset Nat} {i : Nat} {sfs sfs' : Sfs} {d_blocks : Nat}

/-! ### The free map -/

/-- `sfs_init_freemap` reads the blocks one behind the other. -/
theorem init_freemap_eq (dev : Nat → Bytes) (n blkno off : Nat) (data : Bytes)
    (h : blkno + n ≤ d_blocks) :
    ∃ data', sfs_init_freemap dev d_blocks n blkno off data = .ok data' ∧
      ∀ o, data' o = if off ≤ o ∧ o < off + 4096 * n then
        dev (blkno + (o - off) / 4096) ((o - off) % 4096) else data o := by
  induction n generalizing blkno off data with
  | zero =>
      refine ⟨data, rfl, fun o => ?_⟩
      rw [if_neg (by omega)]
  | succ n ih =>
      obtain ⟨data', hrun, hdata⟩ := ih (blkno + 1) (off + 4096)
        (data.overlay off ((dev blkno).slice 0 4096)) (by omega)
      refine ⟨data', ?_, fun o => ?_⟩
      · unfold sfs_init_freemap sfs_init_read
        rw [if_pos (by omega)]
        exact hrun
      · rw [hdata o, Nat.mul_succ, ← Nat.add_assoc]
        by_cases hrest : off + 4096 ≤ o ∧ o < off + 4096 + 4096 * n
        · have hblk : blkno + 1 + (o - (off + 4096)) / 4096 = blkno + (o - off) / 4096 := by omega
          have hoff : (o - (off + 4096)) % 4096 = (o - off) % 4096 := by omega
          rw [if_pos hrest, if_pos (by omega), hblk, hoff]
        · rw [if_neg hrest, Bytes.overlay_slice]
          by_cases hfirst : off ≤ o ∧ o < off + 4096
          · rw [if_pos hfirst, if_pos (by omega), Nat.mod_eq_of_lt (by omega),
              Nat.div_eq_of_lt (by omega), Nat.add_zero]
          · rw [if_neg hfirst, if_neg (by omega)]

/-- A word of a bitmap is read back from its bytes. -/
theorem bitmapWord_getdata {freemap : Bitmap} {data : Bytes} {ix : Nat}
    (h : ∀ o, o < 4 → data (4 * ix + o) = bitmap_getdata freemap (4 * ix + o)) :
    bitmapWord data ix = freemap.map ix := by
  have hslice : data.slice (4 * ix) 4 = toLe 4 (freemap.map ix).toNat := by
    apply List.ext_getElem
    · rw [Bytes.length_slice, length_toLe]
    · intro o ho ho'
      have ho₄ : o < 4 := by rwa [Bytes.length_slice] at ho
      rw [← List.getD_eq_getElem _ 0 ho, Bytes.slice_getD ho₄, h o ho₄]
      unfold bitmap_getdata
      rw [show (4 * ix + o) / 4 = ix by omega, show (4 * ix + o) % 4 = o by omega,
        List.getD_eq_getElem _ 0 ho']
  unfold bitmapWord Bytes.load
  rw [hslice, ofLe_toLe (by exact (freemap.map ix).isLt), BitVec.ofNat_toNat, BitVec.setWidth_eq]

/-- The mount counts the free blocks. -/
theorem countFree_eq (freemap : Bitmap) (n : Nat) :
    countFree freemap n = freeCount freemap.isFree n := by
  unfold countFree freeCount
  rw [Finset.card_def, Finset.filter_val, Finset.range_val, Multiset.range,
    Multiset.filter_coe, Multiset.coe_card]
  congr 1
  apply List.filter_congr
  simp

/-- Blocks that are not free do not count. -/
theorem freeCount_of_bound {free : Nat → Bool} {m n : Nat} (hle : m ≤ n)
    (h : ∀ b, free b = true → b < m) : freeCount free n = freeCount free m := by
  unfold freeCount
  congr 1
  ext b
  rw [Finset.mem_filter, Finset.mem_filter, Finset.mem_range, Finset.mem_range]
  refine and_congr_left fun hb => ?_
  have hlt := h b hb
  omega

/-! ### The mount -/

/-- There is memory for all that `sfs_do_mount` allocates. -/
def MountMem.enough : MountMem := ⟨true, true, true, true, true⟩

/-- The volume as it is mounted again from its device. -/
structure Remounted (sfs sfs' : Sfs) : Prop where
  super : sfs'.super = sfs.super
  nbits : sfs'.freemap.nbits = sfs.freemap.nbits
  nwords : sfs'.freemap.nwords = sfs.freemap.nwords
  isFree : sfs'.freemap.isFree = sfs.freemap.isFree
  dirty : sfs'.super_dirty = false
  list : sfs'.inode_list = []
  inodes : sfs'.inodes = fun _ => none
  dev : sfs'.dev = sfs.dev
  map : ∀ k, k < sfs.freemap.nwords → sfs'.freemap.map k = sfs.freemap.map k

/-- The free map as `bitmap_create` makes it. -/
def createdMap (freemap : Bitmap) : Bitmap :=
  { freemap with map := fun ix => if ix < freemap.nwords then BitVec.allOnes 32 else 0 }

/-- The free map as it is read from the disk. -/
def rereadMap (freemap : Bitmap) : Bitmap :=
  { freemap with map := fun ix => if ix < freemap.nwords then freemap.map ix else 0 }

/-- The free map is read back as it was. -/
theorem isFree_rereadMap (hpool : Pool sfs) :
    (rereadMap sfs.freemap).isFree = sfs.freemap.isFree := by
  funext b
  unfold Bitmap.isFree rereadMap
  dsimp only
  by_cases hb : b / 32 < sfs.freemap.nwords
  · rw [if_pos hb]
  · rw [if_neg hb]
    by_contra hne
    have hset : sfs.freemap.isFree b = true := by
      rw [← Bool.not_eq_false]
      intro hzero
      unfold Bitmap.isFree at hzero
      exact hne (by rw [hzero]; simp)
    have hlt := hpool.bound b hset
    have hle := hpool.bits
    have hwords := hpool.words
    omega

/-- The volume with nothing in memory but what `sfs_do_mount` reads. -/
def remounted (sfs : Sfs) : Sfs where
  super := sfs.super
  freemap := rereadMap sfs.freemap
  super_dirty := false
  inode_list := []
  inodes := fun _ => none
  dev := sfs.dev

/-- What is read by `sfs_do_mount` is what was there. -/
theorem remounted_remounted (hpool : Pool sfs) : Remounted sfs (remounted sfs) :=
  ⟨rfl, rfl, rfl, isFree_rereadMap hpool, rfl, rfl, rfl, rfl, fun _ hk => if_pos hk⟩

/-- The mount of a volume that is on the disk succeeds from the free map on. -/
theorem mount_freemap (hpool : Pool sfs) (hs : Stored sfs) (hsaved : Saved sfs)
    (hlow : 2 + sfs_freemap_blocks sfs.super ≤ sfs.super.blocks) (hd : sfs.super.blocks ≤ d_blocks) :
    sfs_do_mount_freemap sfs.dev d_blocks (true, true) sfs.super = .ok (.ok (remounted sfs)) := by
  have hbits := hs.nbits
  have hwords := hpool.words
  have hmapped : sfs_freemap_blocks sfs.super ≠ 0 := by
    unfold sfs_freemap_blocks
    omega
  have hfits : sfs_freemap_bits sfs.super = sfs_freemap_blocks sfs.super * 32768 := rfl
  -- `bitmap_create` makes a bitmap of ones, over which the blocks of the disk are read.
  have hcreate : bitmap_create (fun _ => 0) (true, true) (sfs_freemap_bits sfs.super) =
      .ok (some (createdMap sfs.freemap)) := by
    have hnwords : (sfs_freemap_bits sfs.super + 31) / 32 = sfs.freemap.nwords := by omega
    unfold bitmap_create
    rw [if_neg (by omega), if_neg (by simp)]
    dsimp only
    rw [if_neg (by simp), hnwords, if_neg (by omega), ← hbits]
    rfl
  obtain ⟨data, hinit, hdata⟩ := init_freemap_eq sfs.dev
    (sfs_freemap_blocks sfs.super) 2 0 (bitmap_getdata (createdMap sfs.freemap)) (hlow.trans hd)
  have hword : ∀ ix, ix < sfs.freemap.nwords → bitmapWord data ix = sfs.freemap.map ix := by
    intro ix hix
    apply bitmapWord_getdata
    intro o ho
    rw [hdata, if_pos (by omega), Nat.sub_zero, hsaved.map _ (by omega) _ (Nat.mod_lt _ (by decide)),
      Nat.div_add_mod]
  have hmap : ({ createdMap sfs.freemap with
      map := fun ix =>
        if ix < (createdMap sfs.freemap).nwords then bitmapWord data ix
        else (createdMap sfs.freemap).map ix } : Bitmap) = rereadMap sfs.freemap := by
    refine congrArg (fun map => ({ sfs.freemap with map := map } : Bitmap)) ?_
    funext ix
    show (if ix < sfs.freemap.nwords then bitmapWord data ix else
      if ix < sfs.freemap.nwords then BitVec.allOnes 32 else 0) = _
    by_cases hix : ix < sfs.freemap.nwords
    · rw [if_pos hix, if_pos hix, hword ix hix]
    · rw [if_neg hix, if_neg hix, if_neg hix]
  -- `assert(sfs->super.unused_blocks == unused_blocks)`
  have hcount : countFree (rereadMap sfs.freemap) (sfs_freemap_bits sfs.super) =
      sfs.super.unused_blocks := by
    rw [countFree_eq, isFree_rereadMap hpool, hpool.count, ← hbits]
    exact freeCount_of_bound hpool.bits hpool.bound
  unfold sfs_do_mount_freemap
  rw [hcreate]
  dsimp only
  rw [hinit]
  dsimp only
  rw [hmap, if_pos hcount]
  rfl

/-- A volume that is on the disk can be mounted. -/
theorem mount_saved (hpool : Pool sfs) (hs : Stored sfs) (hsaved : Saved sfs)
    (hlow : 2 + sfs_freemap_blocks sfs.super ≤ sfs.super.blocks) (hd : sfs.super.blocks ≤ d_blocks) :
    sfs_do_mount sfs.dev d_blocks 4096 MountMem.enough = .ok (.ok (remounted sfs)) := by
  have hrun := mount_freemap hpool hs hsaved hlow hd
  have hsuper := hsaved.super
  have hmagic : (SfsSuper.decode (sfs.dev 0)).magic = SFS_MAGIC := by
    have h := congrArg SfsSuper.magic hsuper
    exact Eq.trans h hs.magic
  have hblocks : (SfsSuper.decode (sfs.dev 0)).blocks = sfs.super.blocks := by
    have h := congrArg SfsSuper.blocks hsuper
    exact h
  unfold sfs_do_mount sfs_init_read MountMem.enough
  rw [if_neg (by simp), if_neg (by simp), if_neg (by simp), if_pos (by omega)]
  dsimp only
  rw [if_neg (by simp [hmagic]), if_neg (by omega), if_neg (by simp)]
  rw [← hsuper] at hrun
  exact hrun

/-- The free map of a volume with a root lies in the volume. -/
theorem Core.map_lt (h : Core I sfs) (hroot : SFS_BLKN_ROOT ∈ I) :
    2 + sfs_freemap_blocks sfs.super ≤ sfs.super.blocks := by
  have hlt := h.lt (.inode SFS_BLKN_ROOT)
  rw [slot_inode hroot] at hlt
  have hpos := hlt (by decide)
  refine h.freemap_lt ?_
  unfold sfs_freemap_blocks
  omega

/-! ### The files of the new volume -/

/-- A file that is as it is on the disk is found there again. -/
theorem Remounted.view_eq (h : Remounted sfs sfs') (hok : FileOk I (view sfs i))
    (hclean : Clean sfs i) : view sfs' i = (view sfs i).dropped := by
  have hdisk := hok.clean hclean
  have hdin : dinOf sfs' i = SfsDiskInode.decode (sfs.dev i) := by
    unfold dinOf
    rw [h.inodes, h.dev]
    rfl
  replace hdisk : SfsDiskInode.decode (sfs.dev i) =
    { dinOf sfs i with blocks := (SfsDiskInode.decode (sfs.dev i)).blocks } := hdisk
  have hentry : entryAt (SfsDiskInode.decode (sfs.dev i)) sfs.dev =
      entryAt (dinOf sfs i) sfs.dev := by
    apply entryAt_congr
    · rw [hdisk]
    · rw [hdisk]
    · exact fun _ => rfl
  have hcontent : contentAt (SfsDiskInode.decode (sfs.dev i)) sfs.dev =
      contentAt (dinOf sfs i) sfs.dev := contentAt_congr hentry fun _ _ => rfl
  have hdirty : ((sfs.inodes i).map fun sin => sin.dirty).getD false = false := hclean
  unfold view FileView.dropped
  rw [hdin, h.dev, h.inodes, hentry, hcontent, hdirty]
  rfl

/-- Mounting moves no block. -/
theorem Remounted.slots (h : Remounted sfs sfs') (hok : ∀ i ∈ I, FileOk I (view sfs i))
    (hclean : ∀ i ∈ I, Clean sfs i) : slot I sfs' = slot I sfs := by
  have hview : ∀ i ∈ I, view sfs' i = (view sfs i).dropped :=
    fun i hi => h.view_eq (hok i hi) (hclean i hi)
  funext x
  cases x with
  | freemap k =>
      show (if k < sfs_freemap_blocks sfs'.super then 2 + k else 0) = _
      rw [h.super]
      rfl
  | inode j => rfl
  | indirect j =>
      by_cases hj : j ∈ I
      · rw [slot_indirect hj, slot_indirect hj, hview j hj]
        show (view sfs j).disk.indirect = _
        rw [(hok j hj).clean (hclean j hj)]
      · exact (if_neg hj).trans (if_neg hj).symm
  | data j k =>
      by_cases hj : j ∈ I
      · rw [slot_data hj, slot_data hj, hview j hj]
        rfl
      · exact (if_neg hj).trans (if_neg hj).symm

/-- The new volume is sound, with no file open. -/
theorem Remounted.filesOk {K : Type} (h : Remounted sfs sfs') {held opn : Nat → Nat}
    (hc : Counted I held opn sfs) (hs : Stored sfs) (hsaved : Saved sfs)
    (hcov : Covered (slot I sfs) sfs.freemap.isFree sfs.super.blocks)
    (hclean : ∀ i ∈ I, Clean sfs i) (hroot : SFS_BLKN_ROOT ∈ I) :
    FilesOk I ({ sfs := sfs', files := fun _ => none } : Files K) := by
  have hok := hc.volume.file
  have hcore := hc.volume.core
  have hslots := h.slots hok hclean
  have hnone : ∀ i, sfs'.inodes i = none := fun i => by rw [h.inodes]
  -- The mount reads back what `sfs_sync` wrote, so every slot points to the same block.
  have hcore' : Core I sfs' := by
    refine ⟨⟨?_, ?_, ?_, ?_, ?_⟩, ?_, ?_, ?_, hcore.pos⟩
    · rw [h.isFree]
      exact hcore.pool.zero
    · rw [h.isFree, h.super]
      exact hcore.pool.bound
    · rw [h.isFree, h.super]
      exact hcore.pool.count
    · rw [h.nbits, h.super]
      exact hcore.pool.bits
    · rw [h.nbits, h.nwords]
      exact hcore.pool.words
    · rw [hslots, h.isFree]
      exact hcore.owned
    · rw [hslots, h.super]
      exact hcore.lt
    · rw [h.super]
      exact hcore.fits
  -- No inode is in memory: a file is what the device says, and that is what it was.
  have hvolume : Volume I sfs' := by
    refine ⟨hcore', ?_, ?_, ?_, ?_⟩
    · intro i hi
      rw [h.view_eq (hok i hi) (hclean i hi)]
      exact (Settled.dropped (hclean i hi)).ok (hok i hi)
    · intro i sin hsin
      rw [hnone i] at hsin
      cases hsin
    · intro i
      rw [h.list, hnone i]
      simp
    · rw [h.list]
      exact List.nodup_nil
  have husers : users (fun _ : K => none) = fun _ => 0 := users_none
  -- No table entry is in use, so nothing counts as open. Then what the superblock and the free map
  -- say on the device.
  refine ⟨finitely_none, ⟨hvolume, ?_, ?_⟩, ⟨?_, ?_, ?_, ?_, fun _ => ⟨?_, ?_⟩⟩, ?_, hroot⟩
  · funext i
    rw [opens_none (hnone i), husers]
  · intro i
    rw [husers]
    exact Nat.zero_le _
  · rw [h.super]
    exact hs.magic
  · rw [h.super]
    exact hs.info
  · rw [h.super]
    exact hs.zero
  · rw [h.nbits, h.super]
    exact hs.nbits
  · rw [h.dev, h.super]
    exact hsaved.super
  · intro k hk o ho
    rw [h.super] at hk
    have hbits := hs.nbits
    have hwords := hcore.pool.words
    have hfits : sfs_freemap_bits sfs.super = sfs_freemap_blocks sfs.super * 32768 := rfl
    rw [h.dev, hsaved.map k hk o ho]
    unfold bitmap_getdata
    rw [h.map _ (by omega)]
  · rw [hslots, h.isFree, h.super]
    exact hcov

/-- The volume as it is mounted from an image: what is in memory is what is on the disk, and each
regular file has the blocks that its size needs, and zeros behind its end. -/
structure Fresh {K : Type} (I : Finset Nat) (t : Files K) : Prop where
  ok : FilesOk I t
  disk : ∀ i ∈ I, (view t.sfs i).disk = (view t.sfs i).din
  blocks : ∀ i ∈ I, (view t.sfs i).din.type = SFS_TYPE_FILE →
    (view t.sfs i).din.blocks = ((view t.sfs i).din.size + 4095) / 4096
  rest : ∀ i ∈ I, (view t.sfs i).din.type = SFS_TYPE_FILE →
    ∀ k, (view t.sfs i).din.blocks ≤ k → (view t.sfs i).entry k = 0
  zero : ∀ i ∈ I, (view t.sfs i).din.type = SFS_TYPE_FILE →
    ∀ pos, (view t.sfs i).din.size ≤ pos → (view t.sfs i).content pos = 0

/-- **What is written back is found again.** Behind any run of system calls and `sfs_sync`, the
device can be mounted again. The new volume is sound, it has the same superblock and the same free
blocks, and each file has the bytes that it had in memory. -/
theorem sync_persists {K : Type} [DecidableEq K] {t : Files K} (h : FilesOk I t)
    (calls : List (Call K)) (hstart : ∀ call ∈ calls, StartsIn I call) :
    (do runCalls calls; onVolume sfs_sync : FilesM K Unit).Ends t
      (fun _ t' => ∀ d_blocks, t'.sfs.super.blocks ≤ d_blocks →
        ∃ sfs', sfs_do_mount t'.sfs.dev d_blocks 4096 MountMem.enough = .ok (.ok sfs') ∧
          FilesOk I ({ sfs := sfs', files := fun _ => none } : Files K) ∧
          sfs'.super = t'.sfs.super ∧ sfs'.freemap.isFree = t'.sfs.freemap.isFree ∧
          ∀ i ∈ I, fileBytes sfs' i = fileBytes t'.sfs i)
      (fun _ _ => False) ByRequest := by
  apply (h.run calls hstart).seq
  · intro _ t₁ h₁
    apply h₁.sync.mono
    · rintro _ t' ⟨-, hsynced, hdid⟩ d_blocks hd
      have hcounted := hdid.ok.counted
      have hcore := hcounted.volume.core
      have hre := remounted_remounted hcore.pool
      have hmount :=
        mount_saved hcore.pool hdid.ok.stored hsynced.saved (hcore.map_lt h.root) hd
      refine ⟨_, hmount, hre.filesOk hcounted hdid.ok.stored hsynced.saved hdid.ok.covered
        hsynced.clean h.root, hre.super, hre.isFree, ?_⟩
      intro i hi
      have hok := hcounted.volume.file i hi
      have hclean := hsynced.clean i hi
      have hview := hre.view_eq hok hclean
      have hsize : (view t'.sfs i).disk.size = (view t'.sfs i).din.size := by
        rw [hok.clean hclean]
      unfold fileBytes
      rw [hview]
      show (view t'.sfs i).content.slice 0 (view t'.sfs i).disk.size = _
      rw [hsize]
    · exact fun _ _ h => h
    · exact fun _ h => h
  · exact fun _ _ h => h.elim
  · exact fun _ h => h

/-- Two bytes are written to the file of a small volume and saved. The calls return, and the volume is
found again, with these bytes. -/
theorem sync_persists_smallFiles :
    ∃ t', (do runCalls [openSmallFile, .write 0 [7, 8]]; onVolume sfs_sync : FilesM Nat Unit)
        smallFiles = .ok (.ok (), t') ∧ fileBytes t'.sfs 3 = [7, 8] ∧
      ∀ d_blocks, t'.sfs.super.blocks ≤ d_blocks →
        ∃ sfs', sfs_do_mount t'.sfs.dev d_blocks 4096 MountMem.enough = .ok (.ok sfs') ∧
          FilesOk {1, 3} ({ sfs := sfs', files := fun _ => none } : Files Nat) ∧
          sfs'.super = t'.sfs.super ∧ sfs'.freemap.isFree = t'.sfs.freemap.isFree ∧
          ∀ i ∈ ({1, 3} : Finset Nat), fileBytes sfs' i = fileBytes t'.sfs i := by
  obtain ⟨⟨r, t'⟩, hrun, hr⟩ := exists_of_map
    (x := (do runCalls [openSmallFile, .write 0 [7, 8]]; onVolume sfs_sync : FilesM Nat Unit)
      smallFiles)
    (f := fun p => (p.1, fileBytes p.2.sfs 3)) (b := (.ok (), [7, 8])) (by decide +kernel)
  obtain ⟨rfl, hbytes⟩ := Prod.mk.inj hr
  exact ⟨t', hrun, hbytes,
    (sync_persists filesOk_smallFiles _ startsIn_smallFiles).of_ok hrun⟩

end Ucore.Proofs.Fs
