import Mathlib
import Ucore.Proofs.Tools.Close

/-!
# `Ucore.Proofs.Tools.Mksfs`: the kernel mounts the image

The image that `mksfs` makes of a directory of the host can be mounted, the volume is sound, and its
root holds the directory with all that is in it (`create_img_mounts`). The tool ends in another way
only when the image is too small.

The proof follows the tool:

* `ready_create`: behind `create_sfs` there is the root alone, and the image is a volume;
* `Ready.open_home`: `open_dir` copies the tree, by the induction of `Ucore.Proofs.Tools.Tree`;
* `Ready.closed_counted`, `Well.closed_saved`: behind `close_sfs` everything is on the image, with
  no inode in memory;
* `Ready.mounted`: `sfs_do_mount` succeeds, and each file is found again, so that `HoldsDir` carries
  over to the volume of the kernel.

`Distinct` is asked of the host: a number names one inode, as it does within one file system. `Fits`
is what the tool does not check and the kernel needs: names that fit an entry, and files that do
without a doubly indirect block.
-/

set_option autoImplicit false

namespace Ucore.Proofs.Tools

open Ucore.Lib Ucore.Fs Ucore.Tools Ucore.Proofs.Fs

variable {st st' : MkSfs} {I : Finset Nat} {i k b : Nat} {ci : CacheInode}
  {host : Nat → HostFile} {isDir : Nat → Prop} {home : HostDir}

/-! ### The volume on the image is sound -/

/-- Closing the image moves no block. -/
theorem Well.closed_slots (h : Well I st) (hw : Wrote (Closes st) (closedBlock st) st st') :
    slot I (closed st st') = slot I (vol st) := by
  have hview : ∀ j ∈ I, (view (closed st st') j).din = (view (vol st) j).din ∧
      (view (closed st st') j).entry = (view (vol st) j).entry := by
    intro j hj
    obtain ⟨cj, hcj⟩ := h.exists_ci hj
    rw [h.closed_view hw hcj]
    exact ⟨rfl, rfl⟩
  funext x
  cases x with
  | freemap k => rfl
  | inode j => rfl
  | indirect j =>
      show (if j ∈ I then _ else 0) = if j ∈ I then _ else 0
      by_cases hj : j ∈ I
      · rw [if_pos hj, if_pos hj, (hview j hj).1]
      · rw [if_neg hj, if_neg hj]
  | data j k =>
      show (if j ∈ I then _ else 0) = if j ∈ I then _ else 0
      by_cases hj : j ∈ I
      · rw [if_pos hj, if_pos hj, (hview j hj).2]
      · rw [if_neg hj, if_neg hj]

/-- The closed image is a volume whose blocks are where they should be. -/
theorem Well.closed_core (h : Well I st) (hw : Wrote (Closes st) (closedBlock st) st st') :
    Core I (closed st st') where
  pool := h.core.pool.congr rfl rfl
  owned := by
    rw [h.closed_slots hw]
    exact h.core.owned
  lt := by
    rw [h.closed_slots hw]
    exact h.core.lt
  fits := h.core.fits
  pos := h.core.pos

/-- Every file of the image is as the kernel wants it. -/
theorem Ready.closed_file (h : Ready host isDir noInode I st)
    (hw : Wrote (Closes st) (closedBlock st) st st') (hi : i ∈ I) :
    FileOk I (view (closed st st') i) := by
  obtain ⟨ci, hci⟩ := h.well.exists_ci hi
  have hwell := h.well.inode i ci hci
  have hfits := h.well.din_fits hci
  have hdin := view_din hci
  have hreach : ci.inode.size / 4096 ≤ ci.inode.blocks := by
    have hsize := hwell.size
    omega
  rw [h.well.closed_view hw hci]
  refine ⟨hwell.mapped, ?_, fun _ => ?_, fun _ => ?_, fun _ hne => ?_, ?_, ?_, ?_, ?_, ?_, ?_, ?_⟩
  · intro k hk _
    rw [hdin] at hk
    exact hwell.rest k hk
  · show MkInode.din ci.inode =
      { (view (vol st) i).din with blocks := (MkInode.din ci.inode).blocks }
    rw [hdin]
  · show (MkInode.din ci.inode).blocks ≤ (view (vol st) i).din.blocks
    rw [hdin]
  · refine absurd ?_ hne
    show (MkInode.din ci.inode).blocks = (view (vol st) i).din.blocks
    rw [hdin]
  · rw [hdin]
    exact hfits.type
  · rw [hdin]
    exact h.linked i ci hci not_false
  · rw [hdin]
    exact hfits.nlinks
  · rw [hdin]
    exact hfits.size
  · intro _
    rw [hdin]
    exact hreach
  · intro _ _
    rw [hdin]
    exact hreach
  · rw [hdin]
    exact fun htype k hk => Or.inr (hwell.dir htype k hk)

/-- Nobody has an inode of the closed image. -/
theorem Ready.closed_counted (h : Ready host isDir noInode I st)
    (hw : Wrote (Closes st) (closedBlock st) st st') :
    Counted I (fun _ => 0) (fun _ => 0) (closed st st') where
  volume :=
    { core := h.well.closed_core hw
      file := fun _ hi => h.closed_file hw hi
      inode := fun _ _ hsin => by cases hsin
      list := fun i => by simp [closed, vol]
      nodup := List.nodup_nil }
  isOpen := rfl
  enough := fun _ => Nat.zero_le _

/-- What is in memory of the kernel's view of the volume is on the image. -/
theorem Well.closed_saved (h : Well I st) (hw : Wrote (Closes st) (closedBlock st) st st') :
    Saved (closed st st') where
  super := by
    have hblocks := h.sizes.blocks
    have hunused := h.sizes.unused
    have hsmall := h.small
    have hdecode : SfsSuper.decode (st'.img 0) = st.super := by
      rw [hw.on 0 (Or.inl rfl)]
      exact super_decode_encode (by rw [h.magic]; decide) (by omega) (by omega) h.info
    show { SfsSuper.decode (st'.img 0) with info := (SfsSuper.decode (st'.img 0)).info.set 31 0 } = _
    rw [hdecode]
    rfl
  map := by
    intro k hk o ho
    have hk' : k < (st.ninos + 32767) / 32768 := lt_of_lt_of_eq hk h.map_blocks
    have hblock : closedBlock st (2 + k) =
        bufferBlock (wordBytes (close_map st.ninos st.next_ino (32768 * k))) := by
      unfold closedBlock
      rw [if_neg (by omega), if_pos (by omega), Nat.add_sub_cancel_left]
    show st'.img (2 + k) o = _
    rw [hw.on (2 + k) (Or.inr (Or.inl (by omega))), hblock]
    exact bufferBlock_close_map st h.sizes.last k o ho

/-- The superblock and the free map of the closed image are on the disk. -/
theorem Well.closed_stored (h : Well I st) (hw : Wrote (Closes st) (closedBlock st) st st') :
    Stored (closed st st') where
  magic := h.magic
  info := (List.length_set ..).trans h.info
  zero := List.set_set ..
  nbits := rfl
  saved := fun _ => h.closed_saved hw

/-! ### An empty image -/

/-- The allocator of the tool is that of a sound volume. -/
theorem Sizes.pool (h : Sizes st) : Pool (vol st) where
  zero := by
    show (bitmapOf _ _).isFree 0 = false
    rw [isFree_bitmapOf]
    refine decide_eq_false fun hlow => ?_
    have hfirst := h.first
    omega
  bound := by
    show ∀ b, (bitmapOf _ _).isFree b = true → b < st.super.blocks
    rw [isFree_bitmapOf, h.blocks]
    exact fun b hb => (of_decide_eq_true hb).2
  count := by
    show st.super.unused_blocks = freeCount (bitmapOf _ _).isFree st.super.blocks
    have hset : (Finset.range st.ninos).filter (fun b => freeFrom st b = true) =
        Finset.Ico st.next_ino st.ninos := by
      ext b
      simp [freeFrom]
    rw [isFree_bitmapOf, h.unused, h.blocks]
    unfold freeCount
    rw [hset, Nat.card_Ico]
  bits := by
    show st.super.blocks ≤ (st.super.blocks + 32767) / 32768 * 32768
    omega
  words := by
    show sfs_freemap_bits st.super = sfs_freemap_bits st.super / 32 * 32
    unfold sfs_freemap_bits
    omega

/-- The only inode in memory is the root, and it is empty. -/
structure OnlyRoot (st : MkSfs) : Prop where
  sizes : Sizes st
  next : st.next_ino = 2 + (st.ninos + 32767) / 32768
  inodes : st.cacheInodes =
    Function.update (fun _ => none) SFS_BLKN_ROOT (some (newInode 0 SFS_TYPE_DIR))

/-- The root is in memory. -/
theorem OnlyRoot.root (h : OnlyRoot st) :
    st.cacheInodes 1 = some (newInode 0 SFS_TYPE_DIR) := by
  rw [h.inodes]
  exact Function.update_self ..

/-- Nothing but the root is in memory. -/
theorem OnlyRoot.eq_one (h : OnlyRoot st) (hci : st.cacheInodes i = some ci) :
    i = 1 ∧ ci = newInode 0 SFS_TYPE_DIR := by
  by_cases hi : i = 1
  · rw [hi, h.root] at hci
    exact ⟨hi, (Option.some.inj hci).symm⟩
  · rw [h.inodes, Function.update_of_ne (by exact hi)] at hci
    cases hci

/-- The blocks in places are the root and the free map. -/
theorem OnlyRoot.placed (h : OnlyRoot st) {x : Slot} (hx : slot {1} (vol st) x ≠ 0) :
    (∃ k, k < (st.ninos + 32767) / 32768 ∧ x = .freemap k ∧ slot {1} (vol st) x = 2 + k) ∨
      (x = .inode 1 ∧ slot {1} (vol st) x = 1) := by
  have hview := view_eq (vol_inodes h.root)
  cases x with
  | freemap k =>
      rw [slot_freemap] at hx ⊢
      have hblocks : sfs_freemap_blocks (vol st).super = (st.ninos + 32767) / 32768 := by
        show (st.super.blocks + 32767) / 32768 = _
        rw [h.sizes.blocks]
      rw [hblocks] at hx ⊢
      by_cases hk : k < (st.ninos + 32767) / 32768
      · exact Or.inl ⟨k, hk, rfl, if_pos hk⟩
      · exact absurd (if_neg hk) hx
  | inode j =>
      by_cases hj : j = 1
      · subst hj
        exact Or.inr ⟨rfl, rfl⟩
      · exact absurd (if_neg (by simpa using hj)) hx
  | indirect j =>
      by_cases hj : j = 1
      · subst hj
        rw [Fs.slot_indirect (Finset.mem_singleton_self 1), hview] at hx
        exact absurd rfl hx
      · exact absurd (if_neg (by simpa using hj)) hx
  | data j k =>
      by_cases hj : j = 1
      · subst hj
        rw [slot_data (Finset.mem_singleton_self 1), hview] at hx
        exact absurd (entryAt_empty (fun _ => rfl) rfl _ k) hx
      · exact absurd (if_neg (by simpa using hj)) hx

/-- A new image is a volume whose blocks are where they should be. -/
theorem OnlyRoot.core (h : OnlyRoot st) (hsmall : st.ninos ≤ 65536) : Core {1} (vol st) where
  pool := h.sizes.pool
  owned := by
    refine ⟨fun x y hx heq => ?_, fun x hx => ?_⟩
    · have hy : slot {1} (vol st) y ≠ 0 := heq ▸ hx
      rcases h.placed hx with ⟨k, -, rfl, hxk⟩ | ⟨rfl, hx1⟩
      · rcases h.placed hy with ⟨l, -, rfl, hyl⟩ | ⟨rfl, hy1⟩
        · rw [show k = l by omega]
        · omega
      · rcases h.placed hy with ⟨l, -, rfl, hyl⟩ | ⟨rfl, hy1⟩
        · omega
        · rfl
    · show (bitmapOf _ _).isFree _ = false
      rw [isFree_bitmapOf]
      refine decide_eq_false fun hlow => ?_
      have hnext := h.next
      rcases h.placed hx with ⟨k, hk, -, hxk⟩ | ⟨-, hx1⟩ <;> omega
  lt := by
    intro x hx
    show _ < st.super.blocks
    rw [h.sizes.blocks]
    have hnext := h.next
    have hlast := h.sizes.last
    rcases h.placed hx with ⟨k, hk, -, hxk⟩ | ⟨-, hx1⟩
    · omega
    · have hfirst := h.sizes.first
      omega
  fits := by
    show st.super.blocks < 2 ^ 20
    rw [h.sizes.blocks]
    omega
  pos := by
    intro i hi
    rw [Finset.mem_singleton.mp hi]
    decide

/-- Every block in use of a new image has its place. -/
theorem OnlyRoot.covered (h : OnlyRoot st) :
    Covered (Fs.slot {1} (vol st)) (vol st).freemap.isFree (vol st).super.blocks := by
  intro b hb hlt hused
  replace hused : (bitmapOf (freeFrom st) _).isFree b = false := hused
  rw [isFree_bitmapOf] at hused
  replace hlt : b < st.super.blocks := hlt
  rw [h.sizes.blocks] at hlt
  have hnext := h.next
  have hlow : b < st.next_ino := by
    by_contra hge
    exact of_decide_eq_false hused ⟨by omega, hlt⟩
  by_cases hone : b = 1
  · exact ⟨.inode 1, by rw [hone]; rfl⟩
  · refine ⟨.freemap (b - 2), ?_⟩
    have hblocks : sfs_freemap_blocks (vol st).super = (st.ninos + 32767) / 32768 := by
      show (st.super.blocks + 32767) / 32768 = _
      rw [h.sizes.blocks]
    rw [slot_freemap, hblocks, if_pos (by omega)]
    omega

/-- The tool begins with the inode of the root. -/
theorem create_onlyRoot {st_size : Nat} {info : List UInt8} {img : Nat → Bytes}
    (hcreate : create_sfs st_size info img = .ok st) : OnlyRoot st := by
  unfold create_sfs at hcreate
  dsimp only at hcreate
  split_ifs at hcreate with hsize
  cases hcreate
  refine ⟨⟨?_, ?_, rfl, rfl⟩, rfl, rfl⟩
  · show 3 ≤ 2 + (min (st_size / 4096 % 2 ^ 32) (1024 * 512) + 32767) / 32768
    omega
  · exact le_of_lt (Nat.not_le.mp hsize)

/-- `create_sfs` makes an image that is ready for the tree. -/
theorem ready_create {st_size : Nat} {info : List UInt8} {img : Nat → Bytes}
    (hcreate : create_sfs st_size info img = .ok st) (hsmall : st_size < 65537 * 4096)
    (hinfo : info.length = 32) (hroot : isDir 0) :
    Ready host isDir (fun j => j = 1) {1} st := by
  have honly := create_onlyRoot hcreate
  -- The bound comes from the size of the host image; `SFS_MAX_NBLKS` only makes the number smaller.
  have hninos : st.ninos ≤ 65536 := by
    unfold create_sfs at hcreate
    dsimp only at hcreate
    split_ifs at hcreate with hsize
    cases hcreate
    show min (st_size / 4096 % 2 ^ 32) (1024 * 512) ≤ 65536
    omega
  -- What `create_sfs` writes into the superblock and the tables, apart from the sizes.
  have hother : st.super.magic = SFS_MAGIC ∧ st.super.info.length = 32 ∧
      st.cacheBlocks = (fun _ => none) ∧ st.blocks = (fun _ => []) ∧
      st.inodes = Function.update (fun _ => []) (Tools.hash64 0) [1] ∧ st.entry.length = 256 := by
    unfold create_sfs at hcreate
    dsimp only at hcreate
    split_ifs at hcreate with hsize
    cases hcreate
    refine ⟨rfl, ?_, rfl, rfl, rfl, List.length_replicate ..⟩
    show (mksfsInfo ++ info.drop 19).length = 32
    rw [List.length_append, List.length_drop, hinfo]
    rfl
  obtain ⟨hmagic, hlen, hcb, hblocks, hinodes, hentry⟩ := hother
  -- The root is the only inode, and it has no block of data. What is asked of other inodes or of
  -- blocks holds because there are none.
  refine ⟨⟨honly.sizes, hninos, hmagic, hlen, honly.core hninos, honly.covered, ?_, ?_, ?_, ?_, ?_,
    hentry⟩, ?_, ?_⟩
  · intro i
    rw [Finset.mem_singleton]
    constructor
    · rintro rfl
      rw [honly.root]
      rfl
    · intro hsome
      obtain ⟨ci, hci⟩ := Option.isSome_iff_exists.mp hsome
      exact (honly.eq_one hci).1
  · intro i ci hci
    obtain ⟨rfl, rfl⟩ := honly.eq_one hci
    have hview := view_eq (vol_inodes honly.root)
    refine ⟨rfl, rfl, ?_, fun k _ => ?_, iff_of_true rfl (Nat.zero_le _), Or.inr (Or.inl rfl),
      le_refl _, ?_, fun _ k hk => absurd hk (Nat.not_lt_zero k)⟩
    · intro k hk
      rw [hview] at hk
      exact absurd hk (Nat.not_lt_zero k)
    · rw [hview]
      exact entryAt_empty (fun _ => rfl) rfl _ k
    · have hfirst := honly.sizes.first
      show 0 < st.next_ino
      omega
  · intro b
    rw [hcb]
    refine iff_of_false (by simp) ?_
    rintro ⟨hb, i, ci, hci, heq⟩
    obtain ⟨-, rfl⟩ := honly.eq_one hci
    exact hb heq.symm
  -- The one hash chain with an inode is that of the root.
  · intro n i
    rw [hinodes]
    by_cases hn : n = Tools.hash64 0
    · rw [hn, Function.update_self, List.mem_singleton]
      constructor
      · rintro rfl
        exact ⟨_, honly.root, rfl⟩
      · rintro ⟨ci, hci, -⟩
        exact (honly.eq_one hci).1
    · rw [Function.update_of_ne hn]
      refine iff_of_false (by simp) ?_
      rintro ⟨ci, hci, heq⟩
      obtain ⟨-, rfl⟩ := honly.eq_one hci
      exact hn heq.symm
  · intro n b
    rw [hblocks, hcb]
    simp
  · intro i ci hci
    obtain ⟨rfl, rfl⟩ := honly.eq_one hci
    exact ⟨fun _ => hroot, fun hne => absurd rfl hne, fun hf => absurd hf (by decide)⟩
  · intro i ci hci hne
    exact absurd (honly.eq_one hci).1 hne

/-! ### The mounted volume -/

/-- The numbers of the host tell its inodes apart: no directory is there twice, and nothing else has
the number of a directory. Zero is the number that the tool gives to the root. -/
structure Distinct (home : HostDir) : Prop where
  nodup : (dirReals home).Nodup
  zero : 0 ∉ dirReals home
  leaves : ∀ r ∈ leafReals home, r ≠ 0 ∧ r ∉ dirReals home

/-- The numbers of directories. -/
def IsDir (home : HostDir) (r : Nat) : Prop := r = 0 ∨ r ∈ dirReals home

/-- `close_sfs` writes the structures in memory to their blocks. -/
theorem Well.close (h : Well I st) : close_sfs.Ends st
    (fun _ st' => Wrote (Closes st) (closedBlock st) st st') (fun _ _ => False)
    fun _ => False := by
  have hfirst := h.sizes.first
  have hlast := h.sizes.last
  have hmap : 2 + (st.ninos + 32767) / 32768 ≤ st.ninos := by
    have hlow := h.core.freemap_lt
    have hblocks : (vol st).super.blocks = st.ninos := h.sizes.blocks
    rw [h.map_blocks, hblocks] at hlow
    exact hlow (by omega)
  have hsuper : st.super.encode.length ≤ 4096 := by
    unfold SfsSuper.encode
    simp only [List.length_append, length_toLe, h.info]
    decide
  exact ends_close_sfs h.above h.hashed hmap hsuper (by omega)

/-- The image before `close_sfs`: the tree is copied. -/
theorem Ready.open_home (h : Ready host (IsDir home) (fun j => j = 1) {1} st) (honly : OnlyRoot st)
    (hfits : Fits host home) (hcount : count home ≤ 1034) (hdist : Distinct home) :
    Makes (Ucore.Tools.open_dir host SFS_BLKN_ROOT SFS_BLKN_ROOT home) st fun st' =>
      ∃ I es, 1 ∈ I ∧ Ready host (IsDir home) noInode I st' ∧ st'.ninos = st.ninos ∧
        (view (vol st') 1).din.type = SFS_TYPE_DIR ∧
        dirEntries (view (vol st') 1) = ⟨1, [46]⟩ :: ⟨1, [46, 46]⟩ :: es ∧
        HoldsDir host (view (vol st')) (fun i => i ∈ I) 1 home es := by
  have hone : 1 ∈ ({1} : Finset Nat) := Finset.mem_singleton_self 1
  have htype : (view (vol st) 1).din.type = SFS_TYPE_DIR := by
    rw [view_din honly.root]
    rfl
  have hempty : dirEntries (view (vol st) 1) = [] := by
    unfold dirEntries
    rw [view_din honly.root]
    rfl
  unfold Ucore.Tools.open_dir
  apply (h.open_dir_dots hone hone htype hempty).seq
  · rintro _ st₁ ⟨h₁, hon₁, hentries₁⟩
    have hdir₁ := hon₁.dir h.well hone htype
    have hahead : Ahead host (IsDir home) {1} 1 home st₁ := by
      refine ⟨hone, hdir₁, ?_, hfits, fun r hr => Or.inr hr, ?_, hdist.nodup, ?_⟩
      · rw [hentries₁]
        show 2 + count home ≤ 1036
        omega
      · rintro r hr (hzero | hmem)
        · exact (hdist.leaves r hr).1 hzero
        · exact (hdist.leaves r hr).2 hmem
      · intro i ci hci hdir
        obtain ⟨ci₀, hci₀, -, hreal⟩ := h.dir_real hon₁ (h₁.well.mem_of hci) hci hdir
        obtain ⟨-, rfl⟩ := honly.eq_one hci₀
        rw [← hreal]
        exact hdist.zero
    apply (h₁.open_dir_loop home hahead).mono
    · rintro _ st₂ ⟨I, es, hheld⟩
      refine ⟨I, es, hheld.sub hone, hheld.ready, hheld.onward.ninos.trans hon₁.ninos,
        hheld.onward.dir h₁.well hone hdir₁, ?_, ?_⟩
      · rw [hheld.entries, hentries₁]
        rfl
      · exact hheld.holds.mono (fun _ _ => SameFile.refl _) fun _ hi => hi.1
    · exact fun _ _ h => h
    · exact fun _ h => h
  · exact fun _ _ h => h
  · exact fun _ h => h

/-- The kernel has mounted the image of the directory. -/
structure Mounted (K : Type) (host : Nat → HostFile) (home : HostDir) (I : Finset Nat)
    (es : List SfsDiskEntry) (sfs : Sfs) : Prop where
  ok : FilesOk I ({ sfs := sfs, files := fun _ => none } : Files K)
  type : (view sfs SFS_BLKN_ROOT).din.type = SFS_TYPE_DIR
  root : dirEntries (view sfs SFS_BLKN_ROOT) =
    ⟨SFS_BLKN_ROOT, [46]⟩ :: ⟨SFS_BLKN_ROOT, [46, 46]⟩ :: es
  holds : HoldsDir host (view sfs) (fun i => i ∈ I) SFS_BLKN_ROOT home es

/-- A file that the kernel finds again. -/
theorem Ready.sameFile {sfs : Sfs} (h : Ready host isDir noInode I st)
    (hw : Wrote (Closes st) (closedBlock st) st st') (hre : Remounted (closed st st') sfs)
    (hi : i ∈ I) : SameFile (view (vol st) i) (view sfs i) := by
  obtain ⟨ci, hci⟩ := h.well.exists_ci hi
  have hview := h.well.closed_view hw hci
  have hclean : Clean (closed st st') i := by
    unfold Clean
    rw [hview]
  have hfile := h.closed_file hw hi
  rw [hre.view_eq hfile hclean, hview, view_eq (vol_inodes hci)]
  exact ⟨rfl, rfl, rfl, rfl, le_refl _⟩

/-- The kernel mounts the closed image. -/
theorem Ready.mount (h : Ready host isDir noInode I st)
    (hw : Wrote (Closes st) (closedBlock st) st st') (hone : 1 ∈ I) {d_blocks : Nat}
    (hd : st.ninos ≤ d_blocks) :
    sfs_do_mount st'.img d_blocks 4096 MountMem.enough =
      .ok (.ok (remounted (closed st st'))) := by
  have hcore := h.well.closed_core hw
  have hblocks : (closed st st').super.blocks = st.ninos := h.well.sizes.blocks
  exact mount_saved hcore.pool (h.well.closed_stored hw) (h.well.closed_saved hw)
    (hcore.map_lt hone) (show (closed st st').super.blocks ≤ d_blocks by omega)

/-- Nothing of the closed image is to be written. -/
theorem Ready.closed_clean (h : Ready host isDir noInode I st)
    (hw : Wrote (Closes st) (closedBlock st) st st') (hi : i ∈ I) : Clean (closed st st') i := by
  obtain ⟨ci, hci⟩ := h.well.exists_ci hi
  unfold Clean
  rw [h.well.closed_view hw hci]

/-- The root of the mounted volume holds the tree. -/
theorem Ready.mounted {K : Type} {es : List SfsDiskEntry}
    (h : Ready host isDir noInode I st) (hw : Wrote (Closes st) (closedBlock st) st st')
    (hone : 1 ∈ I) (htype : (view (vol st) 1).din.type = SFS_TYPE_DIR)
    (hroot : dirEntries (view (vol st) 1) = ⟨1, [46]⟩ :: ⟨1, [46, 46]⟩ :: es)
    (hholds : HoldsDir host (view (vol st)) (fun i => i ∈ I) 1 home es) :
    Mounted K host home I es (remounted (closed st st')) := by
  have hre := remounted_remounted (h.well.closed_core hw).pool
  have hcov : Covered (slot I (closed st st')) (closed st st').freemap.isFree
      (closed st st').super.blocks := by
    rw [h.well.closed_slots hw]
    exact h.well.covered
  have hsame : ∀ i ∈ I, SameFile (view (vol st) i) (view (remounted (closed st st')) i) :=
    fun i hi => h.sameFile hw hre hi
  refine ⟨hre.filesOk (h.closed_counted hw) (h.well.closed_stored hw) (h.well.closed_saved hw) hcov
    (fun i hi => h.closed_clean hw hi) hone, ?_, ?_, ?_⟩
  · exact (hsame 1 hone).type.trans htype
  · exact (hsame 1 hone).dirEntries.trans hroot
  · exact hholds.mono hsame fun _ hi => hi

/-- The files of the mounted volume are tidy. -/
theorem Ready.fresh {K : Type} {es : List SfsDiskEntry}
    (h : Ready host isDir noInode I st) (hw : Wrote (Closes st) (closedBlock st) st st')
    (hm : Mounted K host home I es (remounted (closed st st'))) :
    Fresh I ({ sfs := remounted (closed st st'), files := fun _ => none } : Files K) := by
  have hre := remounted_remounted (h.well.closed_core hw).pool
  have hview : ∀ i ∈ I, ∃ ci, st.cacheInodes i = some ci ∧
      view (remounted (closed st st')) i = (view (closed st st') i).dropped ∧
      view (closed st st') i =
        { view (vol st) i with dirty := false, disk := MkInode.din ci.inode } := by
    intro i hi
    obtain ⟨ci, hci⟩ := h.well.exists_ci hi
    exact ⟨ci, hci, hre.view_eq (h.closed_file hw hi) (h.closed_clean hw hi),
      h.well.closed_view hw hci⟩
  have htidy : ∀ i ∈ I, (view (remounted (closed st st')) i).din.type = SFS_TYPE_FILE →
      Tidy (view (remounted (closed st st')) i) := by
    intro i hi htype
    obtain ⟨ci, hci, hv, hc⟩ := hview i hi
    rw [hv, hc] at htype
    exact (h.sameFile hw hre hi).tidy ((h.copied i ci hci).tidy htype)
  refine ⟨hm.ok, fun i hi => ?_, fun i hi htype => (htidy i hi htype).blocks,
    fun i hi _ k hk => ?_, fun i hi htype => (htidy i hi htype).zero⟩
  · obtain ⟨ci, hci, hv, hc⟩ := hview i hi
    show (view (remounted (closed st st')) i).disk = _
    rw [hv]
    rfl
  · obtain ⟨ci, hci, hv, hc⟩ := hview i hi
    replace hk : (view (remounted (closed st st')) i).din.blocks ≤ k := hk
    show (view (remounted (closed st st')) i).entry k = 0
    rw [hv, hc] at hk ⊢
    exact (h.well.inode i ci hci).rest k hk

/-- The tool has copied the tree and closed the image. -/
theorem mounts_closed {K : Type} {st₁ : MkSfs} {st_size : Nat} {info : List UInt8}
    {img : Nat → Bytes} (hcreate : create_sfs st_size info img = .ok st)
    (hsmall : st_size < 65537 * 4096) (hinfo : info.length = 32) (hfits : Fits host home)
    (hcount : count home ≤ 1034) (hdist : Distinct home)
    (hopen : Ucore.Tools.open_dir host SFS_BLKN_ROOT SFS_BLKN_ROOT home st = .ok (.ok (), st₁))
    (hclose : close_sfs st₁ = .ok (.ok (), st')) :
    ∃ I es, Mounted K host home I es (remounted (closed st₁ st')) ∧
      Fresh I ({ sfs := remounted (closed st₁ st'), files := fun _ => none } : Files K) ∧
      ∀ d_blocks, st.ninos ≤ d_blocks →
        sfs_do_mount st'.img d_blocks 4096 MountMem.enough =
          .ok (.ok (remounted (closed st₁ st'))) := by
  have hready : Ready host (IsDir home) (fun j => j = 1) {1} st :=
    ready_create hcreate hsmall hinfo (Or.inl rfl)
  obtain ⟨I, es, hone, h₁, hninos, htype, hroot, hholds⟩ :=
    (hready.open_home (create_onlyRoot hcreate) hfits hcount hdist).of_ok hopen
  have hw := h₁.well.close.of_ok hclose
  have hmounted := h₁.mounted (K := K) hw hone htype hroot hholds
  exact ⟨I, es, hmounted, h₁.fresh hw hmounted, fun d_blocks hd => h₁.mount hw hone (by omega)⟩

/-- The tool makes an image that the kernel can mount, or it runs out of blocks. -/
theorem ends_create_img {K : Type} {st_size : Nat} {info : List UInt8} {img : Nat → Bytes}
    (hcreate : create_sfs st_size info img = .ok st) (hsmall : st_size < 65537 * 4096)
    (hinfo : info.length = 32) (hfits : Fits host home) (hcount : count home ≤ 1034)
    (hdist : Distinct home) :
    (create_img host home).Ends st
      (fun _ st' => ∃ sfs I es, Mounted K host home I es sfs ∧
        Fresh I ({ sfs := sfs, files := fun _ => none } : Files K) ∧
        ∀ d_blocks, st.ninos ≤ d_blocks →
          sfs_do_mount st'.img d_blocks 4096 MountMem.enough = .ok (.ok sfs))
      (fun e _ => e = .outOfSpace) fun _ => False := by
  have hready : Ready host (IsDir home) (fun j => j = 1) {1} st :=
    ready_create hcreate hsmall hinfo (Or.inl rfl)
  unfold create_img
  apply (hready.open_home (create_onlyRoot hcreate) hfits hcount hdist).and_run.seq
  · rintro _ st₁ ⟨⟨I, es, -, h₁, -⟩, hopen⟩
    apply h₁.well.close.and_run.mono
    · rintro _ st' ⟨-, hclose⟩
      obtain ⟨I, es, hmounted, hfresh, hmount⟩ :=
        mounts_closed (K := K) hcreate hsmall hinfo hfits hcount hdist hopen hclose
      exact ⟨_, I, es, hmounted, hfresh, hmount⟩
    · exact fun _ _ h => h.elim
    · exact fun _ h => h
  · exact fun _ _ h => h
  · exact fun _ h => h

/-- **The kernel mounts the image.** When the tool has made an image of a directory of the host, then
the kernel can mount it: the volume is sound, and its root holds the directory, with the bytes of
every file and link. The tool fails only when it runs out of blocks. -/
theorem create_img_mounts {K : Type} {st_size : Nat} {info : List UInt8} {img : Nat → Bytes}
    (hcreate : create_sfs st_size info img = .ok st) (hsmall : st_size < 65537 * 4096)
    (hinfo : info.length = 32) (hfits : Fits host home) (hcount : count home ≤ 1034)
    (hdist : Distinct home) :
    (create_img host home).Ends st
      (fun _ st' => ∀ d_blocks, st.ninos ≤ d_blocks →
        ∃ sfs I es, sfs_do_mount st'.img d_blocks 4096 MountMem.enough = .ok (.ok sfs) ∧
          Mounted K host home I es sfs)
      (fun e _ => e = .outOfSpace) fun _ => False := by
  apply (ends_create_img hcreate hsmall hinfo hfits hcount hdist).mono
  · rintro _ st' ⟨sfs, I, es, hmounted, -, hmount⟩ d_blocks hd
    exact ⟨sfs, I, es, hmount d_blocks hd, hmounted⟩
  · exact fun _ _ h => h
  · exact fun _ h => h

/-! ### An image of 480 kB -/

/-- A file, which has two names, and a link to it. -/
def smallHost : Nat → HostFile
  | 11 => .reg [7, 8, 9]
  | 12 => .lnk [102]
  | _ => .other

/-- `f`, a directory `d` with `f` and a link `l` in it, and a file that is not copied. -/
def smallHome : HostDir :=
  .node [102] 11 (.dir [100] 13 (.node [102] 11 (.node [108] 12 .nil)) (.node [46, 120] 14 .nil))

/-- The state of the tool behind `create_sfs`. -/
def smallImage : MkSfs :=
  MkSfs.withInode
    { super :=
        { magic := SFS_MAGIC, blocks := 117, unused_blocks := 114,
          info := mksfsInfo ++ List.replicate 13 0 }
      ninos := 117
      next_ino := 3
      inodes := fun _ => []
      blocks := fun _ => []
      cacheInodes := fun _ => none
      cacheBlocks := fun _ => none
      entry := List.replicate 256 0
      img := fun _ _ => 0 } SFS_BLKN_ROOT 0 SFS_TYPE_DIR

/-- The tree is one that the tool can take. -/
theorem fits_smallHome : Fits smallHost smallHome := by
  have hf : NameFits [102] := ⟨by decide, by decide⟩
  have hd : NameFits [100] := ⟨by decide, by decide⟩
  have hl : NameFits [108] := ⟨by decide, by decide⟩
  have hreg : FileFits (smallHost 11) := show 3 ≤ 1036 * 4096 by decide
  have hlnk : FileFits (smallHost 12) := show 1 < 4096 by decide
  have hhidden : skipped [46, 120] := Or.inr (Or.inr rfl)
  refine ⟨fun _ => ⟨hf, hreg⟩, fun _ => ⟨hd, by decide, ?_⟩, fun hno => absurd hhidden hno, trivial⟩
  exact ⟨fun _ => ⟨hf, hreg⟩, fun _ => ⟨hl, hlnk⟩, trivial⟩

/-- The numbers of the tree tell its inodes apart. -/
theorem distinct_smallHome : Distinct smallHome := ⟨by decide, by decide, by decide⟩

/-- The image at the start. -/
theorem create_smallImage :
    create_sfs 480000 (List.replicate 32 0) (fun _ _ => 0) = .ok smallImage := by
  have hninos : min (480000 / 4096 % 2 ^ 32) (1024 * 512) = 117 := by decide
  unfold create_sfs
  rw [hninos]
  rfl

/-- The directory is not too long. -/
theorem count_smallHome : count smallHome ≤ 1034 := by decide

/-- The tool writes the tree into the image of 117 blocks, which has room for it. The kernel mounts
the image. -/
theorem create_img_mounts_smallHome :
    ∃ st', create_img smallHost smallHome smallImage = .ok (.ok (), st') ∧
      ∀ d_blocks, smallImage.ninos ≤ d_blocks →
        ∃ sfs I es, sfs_do_mount st'.img d_blocks 4096 MountMem.enough = .ok (.ok sfs) ∧
          Mounted Nat smallHost smallHome I es sfs := by
  have hsmall : 480000 < 65537 * 4096 := by omega
  obtain ⟨⟨r, st'⟩, hrun, hr⟩ := exists_of_map (x := create_img smallHost smallHome smallImage)
    (f := fun p => p.1.toOption) (b := some ()) (by decide +kernel)
  -- the name keeps the elaborator from running the tool
  generalize himage : smallImage = st at hrun ⊢
  have hcreate : create_sfs 480000 (List.replicate 32 0) (fun _ _ => 0) = .ok st :=
    himage ▸ create_smallImage
  have hends := create_img_mounts (K := Nat) hcreate hsmall List.length_replicate fits_smallHome
    count_smallHome distinct_smallHome
  cases r with
  | ok u => exact ⟨st', hrun, hends.of_ok hrun⟩
  | error e => cases hr

end Ucore.Proofs.Tools
