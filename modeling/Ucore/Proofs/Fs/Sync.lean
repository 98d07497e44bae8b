import Ucore.Fs.File
import Ucore.Proofs.Fs.Change

/-!
# `Ucore.Proofs.Fs.Sync`: the superblock and the free map on the disk

`Stored` says that the superblock and the free map on the disk are those in memory unless they are
marked. What a call does keeps it (`Evolves.stored`), and `sfs_sync` makes the disk agree with what
is in memory (`Counted.sync`).

`sfs_sync` has two parts. The loop over the list of inodes calls `vop_fsync` for each, and behind it
every inode in memory is `Clean` (`Counted.sync_inodes`, by induction on the list). Then
`sfs_sync_super` and `sfs_sync_freemap` write the superblock and the free map if they are marked.
These blocks are in no file, so the files do not see it (`Aside`).

What is written is read back as it was: a superblock by `super_decode_encode`, and an inode and the
words of the free map in the module of the codecs. `Synced` is the state behind the call, from which
`Ucore.Proofs.Fs.Mount` mounts the volume again.
-/

set_option autoImplicit false

namespace Ucore.Proofs.Fs

open Ucore.Lib Ucore.Fs

variable {I : Finset Nat} {i j k n b : Nat} {sfs sfs' sfs'' : Sfs} {sin : SfsInode}
  {held opn : Nat → Nat} {v w : FileView} {names : Nat → Prop}
  {index range blocks : Prop}

/-! ### What is on the disk -/

/-- The superblock on the disk, as it is in memory behind a mount. -/
def superAt (dev : Nat → Bytes) : SfsSuper :=
  { SfsSuper.decode (dev 0) with info := (SfsSuper.decode (dev 0)).info.set 31 0 }

/-- The superblock and the free map on the disk are those in memory. -/
structure Saved (sfs : Sfs) : Prop where
  super : superAt sfs.dev = sfs.super
  map : ∀ k, k < sfs_freemap_blocks sfs.super → ∀ o, o < 4096 →
    sfs.dev (2 + k) o = bitmap_getdata sfs.freemap (4096 * k + o)

/-- The superblock and the free map on the disk are those in memory, unless they are marked. -/
structure Stored (sfs : Sfs) : Prop where
  magic : sfs.super.magic = SFS_MAGIC
  info : sfs.super.info.length = 32
  zero : sfs.super.info.set 31 0 = sfs.super.info
  nbits : sfs.freemap.nbits = sfs_freemap_bits sfs.super
  saved : sfs.super_dirty = false → Saved sfs

/-- A call that leaves `super_dirty` unset leaves the superblock and the free map on the disk
right. -/
theorem Evolves.stored (h : Evolves I names sfs sfs') (hs : Stored sfs) : Stored sfs' := by
  have hblocks : sfs_freemap_bits sfs'.super = sfs_freemap_bits sfs.super := by
    rw [h.super]
    rfl
  refine ⟨?_, ?_, ?_, ?_, ?_⟩
  · rw [h.super]
    exact hs.magic
  · rw [h.super]
    exact hs.info
  · rw [h.super]
    exact hs.zero
  · rw [h.nbits, hblocks]
    exact hs.nbits
  · intro hdirty
    obtain ⟨hold, hsuper, hmap⟩ := h.superDirty hdirty
    obtain ⟨hsup, hfree⟩ := hs.saved hold
    refine ⟨?_, ?_⟩
    · rw [hsuper, ← hsup]
      unfold superAt
      rw [h.zero]
    · intro k hk o ho
      rw [hsuper] at hk
      have hslot : slot I sfs (.freemap k) = 2 + k := if_pos hk
      have hdev := h.map k (by rw [hslot]; omega)
      rw [hslot] at hdev
      rw [hdev, hmap]
      exact hfree k hk o ho

/-! ### Writing back the inodes -/

/-- A file that is written back stays so. -/
theorem Settled.clean (h : Settled v w) (hv : v.dirty = false) : w.dirty = false := by
  cases h with
  | same => exact hv
  | flushed _ => rfl
  | dropped _ => exact hv

/-- The inode in memory, if any, is as it is on the disk. -/
def Clean (sfs : Sfs) (i : Nat) : Prop := (view sfs i).dirty = false

/-- An inode is not to be written behind its `fsync`. -/
theorem dirty_fsynced (hsin : sfs.inodes i = some sin) : Clean (fsynced sfs i sin) i := by
  unfold Clean fsynced
  split_ifs with hdirty
  · have hnew : (withSynced sfs i sin).inodes i = some { sin with dirty := false } :=
      Function.update_self ..
    rw [view_eq hnew]
  · rw [view_eq hsin]
    exact Bool.not_eq_true _ ▸ hdirty

/-- `fsync` neither loads nor drops an inode. -/
theorem isSome_fsynced (hsin : sfs.inodes i = some sin) (j : Nat) :
    ((fsynced sfs i sin).inodes j).isSome = (sfs.inodes j).isSome := by
  unfold fsynced
  split_ifs with hdirty
  · by_cases hji : j = i
    · rw [hji, hsin]
      show (Function.update sfs.inodes i _ i).isSome = _
      rw [Function.update_self]
      rfl
    · show (Function.update sfs.inodes i _ j).isSome = _
      rw [Function.update_of_ne hji]
  · rfl

/-- The loop of `sfs_sync` writes back the inodes of the list. -/
theorem Counted.sync_inodes (h : Counted I held opn sfs) (l : List Nat)
    (hl : ∀ j ∈ l, (sfs.inodes j).isSome = true) :
    (sfs_sync_inodes l).Ends sfs
      (fun _ sfs' => Calm I held opn sfs sfs' ∧
        (∀ j, (sfs'.inodes j).isSome = (sfs.inodes j).isSome) ∧
        ∀ j ∈ l, Clean sfs' j)
      (fun _ _ => False) (Refuses index range blocks) := by
  induction l generalizing sfs with
  | nil => exact ⟨h.calm, fun _ => rfl, fun _ hj => by cases hj⟩
  | cons i l ih =>
      obtain ⟨sin, hsin⟩ := Option.isSome_iff_exists.mp (hl i (List.mem_cons_self ..))
      have hi := (h.volume.inode i sin hsin).mem
      have hlt := h.volume.core.lt (.inode i)
      rw [slot_inode hi] at hlt
      unfold sfs_sync_inodes
      rw [Routine.ends_bind, Routine.ends_handle]
      apply (ends_vop_fsync hsin (h.pos hi) (hlt (h.pos hi))).mono
      · rintro _ sfs₁ rfl
        have h₁ : Calm I held opn sfs (fsynced sfs i sin) := by
          unfold fsynced
          split_ifs with hdirty
          · exact ⟨h.synced hsin hdirty, quiet_withSynced h.volume hsin hdirty⟩
          · exact h.calm
        apply (ih h₁.counted fun j hj => ?_).mono
        · rintro _ sfs₂ ⟨h₂, hsame, hclean⟩
          refine ⟨h₁.trans h₂, fun j => (hsame j).trans (isSome_fsynced hsin j), ?_⟩
          intro j hj
          rcases List.mem_cons.mp hj with rfl | hj
          · exact (h₂.quiet.settled j hi).clean (dirty_fsynced hsin)
          · exact hclean j hj
        · exact fun _ _ h => h
        · exact fun _ h => h
        · rw [isSome_fsynced hsin]
          exact hl j (List.mem_cons_of_mem _ hj)
      · exact fun _ _ h => h.elim
      · exact fun _ h => h

/-! ### Writing back the superblock and the free map -/

/-- The blocks from `b` on have been written. -/
def withBlocks (sfs : Sfs) (data : Bytes) (b n : Nat) : Sfs :=
  { sfs with dev := fun c =>
      if b ≤ c ∧ c < b + n then fun o => data (4096 * (c - b) + o) else sfs.dev c }

/-- `sfs_wblock` of several blocks writes them, one after another. -/
theorem ends_wblocks {Q : Unit → Sfs → Prop} {E : Errno → Sfs → Prop} {H : SfsPanic → Prop}
    (data : Bytes) (hb : b ≠ 0) (hlt : b + n ≤ sfs.super.blocks) :
    (sfs_wblocks data b n).Ends sfs Q E H ↔ Q () (withBlocks sfs data b n) := by
  induction n generalizing sfs data b with
  | zero =>
      have hsame : withBlocks sfs data b 0 = sfs := by
        unfold withBlocks
        congr 1
        funext c
        rw [if_neg (by omega)]
      rw [hsame]
      rfl
  | succ n ih =>
      unfold sfs_wblocks
      rw [Routine.ends_bind, ends_wblock_nolock (Or.inl hb) (by omega), ih _ (by omega) (by
        show b + 1 + n ≤ sfs.super.blocks
        omega)]
      have hsame : withBlocks { sfs with dev := Function.update sfs.dev b data }
          (fun k => data (4096 + k)) (b + 1) n = withBlocks sfs data b (n + 1) := by
        unfold withBlocks
        congr 1
        funext c
        by_cases hself : c = b
        · subst hself
          rw [if_neg (by omega), if_pos (by omega)]
          refine (Function.update_self ..).trans ?_
          funext o
          rw [Nat.sub_self, Nat.mul_zero, Nat.zero_add]
        · by_cases hin : b + 1 ≤ c ∧ c < b + 1 + n
          · rw [if_pos hin, if_pos (by omega)]
            funext o
            show data (4096 + (4096 * (c - (b + 1)) + o)) = data (4096 * (c - b) + o)
            congr 1
            omega
          · rw [if_neg hin, if_neg (by omega)]
            exact Function.update_of_ne hself ..
      rw [hsame]

/-- The volume behind `sfs_sync_super` and `sfs_sync_freemap`. -/
def withMap (sfs : Sfs) : Sfs :=
  withBlocks { sfs with
    super_dirty := false
    dev := Function.update sfs.dev 0 (bufferBlock sfs.super.encode) }
    (bitmap_getdata sfs.freemap) 2 (sfs_freemap_blocks sfs.super)

/-- The superblock is written to the first block. -/
theorem withMap_zero (sfs : Sfs) : (withMap sfs).dev 0 = bufferBlock sfs.super.encode := by
  unfold withMap withBlocks
  dsimp only
  rw [if_neg (by omega), Function.update_self]

/-- The free map lies in the volume. -/
theorem Core.freemap_lt (h : Core I sfs) : sfs_freemap_blocks sfs.super ≠ 0 →
    2 + sfs_freemap_blocks sfs.super ≤ sfs.super.blocks := by
  intro hne
  have hslot : slot I sfs (.freemap (sfs_freemap_blocks sfs.super - 1)) =
      2 + (sfs_freemap_blocks sfs.super - 1) := if_pos (by omega)
  have hlt := h.lt (.freemap (sfs_freemap_blocks sfs.super - 1)) (by rw [hslot]; omega)
  rw [hslot] at hlt
  omega

/-- `sfs_sync_super` and `sfs_sync_freemap` write the superblock and the free map. -/
theorem ends_sync_freemaps {Q : Unit → Sfs → Prop} {E : Errno → Sfs → Prop}
    {H : SfsPanic → Prop} (hcore : Core I sfs) (hdirty : sfs.super_dirty = true)
    (hpos : 0 < sfs.super.blocks) :
    sfs_sync_freemaps.Ends sfs Q E H ↔ Q () (withMap sfs) := by
  unfold sfs_sync_freemaps sfs_sync_super sfs_sync_freemap
  have hne : sfs_freemap_blocks sfs.super ≠ 0 := by
    unfold sfs_freemap_blocks
    omega
  have hpos' : 0 < ({ sfs with super_dirty := false } : Sfs).super.blocks := hpos
  rw [Routine.ends_bind, Routine.ends_read, id_eq, Routine.ends_when, if_pos hdirty,
    Routine.ends_bind, Routine.ends_modify, Routine.ends_bind, Routine.ends_handle, Routine.ends_bind,
    Routine.ends_read, ends_wblock_nolock (Or.inr rfl) hpos', Routine.ends_handle,
    Routine.ends_bind, Routine.ends_read]
  exact ends_wblocks _ (by omega) (hcore.freemap_lt hne)

/-! ### The superblock, written and read -/

/-- A block is the data over zeros. -/
theorem bufferBlock_eq (buf : List UInt8) : bufferBlock buf = Bytes.overlay (fun _ => 0) 0 buf := by
  funext k
  unfold bufferBlock
  by_cases hk : k < buf.length
  · rw [Bytes.overlay_of_inside (Nat.zero_le k) (by omega), Nat.sub_zero]
  · rw [Bytes.overlay_of_outside (by omega), List.getD_eq_default _ _ (by omega)]

/-- A word of a buffer. -/
theorem load_bufferBlock {buf : List UInt8} (pre post : List UInt8) {off x : Nat}
    (hbuf : buf = pre ++ (toLe 4 x ++ post)) (hpre : pre.length = off) (hx : x < 2 ^ 32) :
    (bufferBlock buf).load off 4 = x := by
  have hlen : (toLe 4 x).length = 4 := length_toLe 4 x
  unfold Bytes.load
  rw [bufferBlock_eq, Bytes.slice_overlay_inside, hbuf, ← hpre, List.drop_left,
    List.take_left' hlen, ofLe_toLe (by exact hx)]
  rw [hbuf, List.length_append, List.length_append, hlen]
  omega

/-- No more blocks are free than there are. -/
theorem Pool.unused_le (h : Pool sfs) : sfs.super.unused_blocks ≤ sfs.super.blocks := by
  rw [h.count]
  exact (Finset.card_filter_le _ _).trans (le_of_eq (Finset.card_range _))

/-- A superblock is read back as it was written. -/
theorem super_decode_encode {super : SfsSuper} (hmagic : super.magic < 2 ^ 32)
    (hblocks : super.blocks < 2 ^ 32) (hunused : super.unused_blocks < 2 ^ 32)
    (hinfo : super.info.length = 32) : SfsSuper.decode (bufferBlock super.encode) = super := by
  have hmagic' : (bufferBlock super.encode).load 0 4 = super.magic := by
    refine load_bufferBlock []
      (toLe 4 super.blocks ++ (toLe 4 super.unused_blocks ++ super.info)) ?_ rfl hmagic
    unfold SfsSuper.encode
    simp only [List.append_assoc]
    rfl
  have hblocks' : (bufferBlock super.encode).load 4 4 = super.blocks := by
    refine load_bufferBlock (toLe 4 super.magic) (toLe 4 super.unused_blocks ++ super.info) ?_
      (length_toLe _ _) hblocks
    unfold SfsSuper.encode
    simp only [List.append_assoc]
  have hfree : (bufferBlock super.encode).load 8 4 = super.unused_blocks := by
    refine load_bufferBlock (toLe 4 super.magic ++ toLe 4 super.blocks) super.info ?_ (by simp)
      hunused
    unfold SfsSuper.encode
    simp only [List.append_assoc]
  have hinfo' : (bufferBlock super.encode).slice 12 32 = super.info := by
    have hlen : (toLe 4 super.magic ++ toLe 4 super.blocks ++
        toLe 4 super.unused_blocks).length = 12 := by simp
    rw [bufferBlock_eq, Bytes.slice_overlay_inside]
    · unfold SfsSuper.encode
      rw [List.drop_left' hlen, List.take_of_length_le (le_of_eq hinfo)]
    · unfold SfsSuper.encode
      rw [List.length_append, hlen, hinfo]
  unfold SfsSuper.decode
  rw [hmagic', hblocks', hfree, hinfo']

/-- The superblock is read back as it was written. -/
theorem superAt_encode (hcore : Core I sfs) (hs : Stored sfs) {dev : Nat → Bytes}
    (hdev : dev 0 = bufferBlock sfs.super.encode) : superAt dev = sfs.super := by
  have hfits : sfs.super.blocks < 2 ^ 32 := lt_trans hcore.fits (by decide)
  unfold superAt
  rw [hdev, super_decode_encode (by rw [hs.magic]; decide) hfits
    (lt_of_le_of_lt hcore.pool.unused_le hfits) hs.info, hs.zero]

/-! ### `sfs_sync` -/

/-- Blocks outside of all files have been written. -/
structure Aside (I : Finset Nat) (sfs sfs' : Sfs) : Prop where
  super : sfs'.super = sfs.super
  freemap : sfs'.freemap = sfs.freemap
  list : sfs'.inode_list = sfs.inode_list
  inodes : sfs'.inodes = sfs.inodes
  dev : ∀ x, x.owner ≠ none → slot I sfs x ≠ 0 → sfs'.dev (slot I sfs x) = sfs.dev (slot I sfs x)

/-- A write beside the files changes no file. -/
theorem Aside.view_eq (h : Aside I sfs sfs') (hpos : ∀ j ∈ I, j ≠ 0) (hi : i ∈ I) :
    view sfs' i = view sfs i := by
  apply view_congr hi (hpos i hi) (by rw [h.inodes])
  intro x hx
  exact h.dev x (by rw [hx]; simp)

/-- A write beside the files moves no block. -/
theorem Aside.slots (h : Aside I sfs sfs') (hpos : ∀ j ∈ I, j ≠ 0) :
    slot I sfs' = slot I sfs := by
  funext x
  cases hx : x.owner with
  | none =>
      cases x with
      | freemap k =>
          show (if k < sfs_freemap_blocks sfs'.super then 2 + k else 0) = _
          rw [h.super]
          rfl
      | inode j => cases hx
      | indirect j => cases hx
      | data j k => cases hx
  | some j =>
      apply slot_congr hpos hx (by rw [h.inodes])
      intro y hy
      exact h.dev y (by rw [hy]; simp)

/-- A write beside the files keeps the invariant. -/
theorem Aside.counted (h : Aside I sfs sfs') (hc : Counted I held opn sfs) :
    Counted I held opn sfs' := by
  have hpos := hc.volume.core.pos
  have hslots := h.slots hpos
  have hrefs : refs sfs' = refs sfs := by
    unfold refs
    rw [h.inodes]
  have hopens : opens sfs' = opens sfs := by
    unfold opens
    rw [h.inodes]
  refine ⟨⟨⟨hc.volume.core.pool.congr h.freemap h.super, ?_, ?_, ?_, hpos⟩, ?_, ?_, ?_, ?_⟩,
    hopens.trans hc.isOpen, ?_⟩
  · rw [hslots, h.freemap]
    exact hc.volume.core.owned
  · rw [hslots, h.super]
    exact hc.volume.core.lt
  · rw [h.super]
    exact hc.volume.core.fits
  · intro i hi
    rw [h.view_eq hpos hi]
    exact hc.volume.file i hi
  · rw [h.inodes]
    exact hc.volume.inode
  · rw [h.list, h.inodes]
    exact hc.volume.list
  · rw [h.list]
    exact hc.volume.nodup
  · rw [hrefs]
    exact hc.enough

/-- The superblock and the free map are no part of a file. -/
theorem aside_withMap (hcore : Core I sfs) : Aside I sfs (withMap sfs) := by
  refine ⟨rfl, rfl, rfl, rfl, fun x hx hne => ?_⟩
  have hout : ¬ (2 ≤ slot I sfs x ∧ slot I sfs x < 2 + sfs_freemap_blocks sfs.super) := by
    rintro ⟨hlow, hhigh⟩
    have hmap : slot I sfs (.freemap (slot I sfs x - 2)) = slot I sfs x := by
      show (if slot I sfs x - 2 < sfs_freemap_blocks sfs.super then 2 + (slot I sfs x - 2) else 0) = _
      rw [if_pos (by omega)]
      omega
    have heq := hcore.owned.inj x _ hne hmap.symm
    rw [heq] at hx
    exact hx rfl
  show (if _ then _ else Function.update sfs.dev 0 _ (slot I sfs x)) = _
  rw [if_neg hout, Function.update_of_ne hne]

/-- What `sfs_sync` has done. -/
structure Synced (I : Finset Nat) (held opn : Nat → Nat) (sfs sfs' : Sfs) : Prop where
  counted : Counted I held opn sfs'
  stored : Stored sfs'
  saved : Saved sfs'
  clean : ∀ i ∈ I, Clean sfs' i
  settled : ∀ i ∈ I, Settled (view sfs i) (view sfs' i)
  covered : Covered (slot I sfs) sfs.freemap.isFree sfs.super.blocks →
    Covered (slot I sfs') sfs'.freemap.isFree sfs'.super.blocks

/-- `sfs_sync` writes everything back and keeps the invariant. -/
theorem Counted.sync (h : Counted I held opn sfs) (hs : Stored sfs) (hroot : SFS_BLKN_ROOT ∈ I) :
    sfs_sync.Ends sfs (fun _ sfs' => Synced I held opn sfs sfs') (fun _ _ => False)
      (Refuses index range blocks) := by
  unfold sfs_sync
  rw [Routine.ends_bind, Routine.ends_read]
  apply (h.sync_inodes _ fun j hj => (h.volume.list j).mp hj).seq
  -- First the inodes of the list, and every inode in memory is in it.
  · rintro _ sfs₁ ⟨h₁, hsome, hlist⟩
    have hs₁ := (h₁.quiet.evolves (n := fun _ => False)).stored hs
    have hcore₁ := h₁.counted.volume.core
    have hclean : ∀ i ∈ I, Clean sfs₁ i := by
      intro i hi
      cases hsin : sfs₁.inodes i with
      | none =>
          unfold Clean view
          rw [hsin]
          rfl
      | some sin =>
          apply hlist i
          have hin := hsome i
          rw [hsin] at hin
          exact (h.volume.list i).mpr hin.symm
    have hcov := h₁.quiet.covered
    -- Then the superblock and the free map, which are written back only when they are marked.
    by_cases hdirty : sfs₁.super_dirty = true
    · have hpos : 0 < sfs₁.super.blocks := by
        have hlt := hcore₁.lt (.inode SFS_BLKN_ROOT)
        rw [slot_inode hroot] at hlt
        have hroot' := hlt (by decide)
        omega
      have haside := aside_withMap hcore₁
      rw [ends_sync_freemaps hcore₁ hdirty hpos]
      have hsaved : Saved (withMap sfs₁) := by
        refine ⟨superAt_encode hcore₁ hs₁ (withMap_zero sfs₁), ?_⟩
        · intro k hk o ho
          have hk' : k < sfs_freemap_blocks sfs₁.super := hk
          show (if 2 ≤ 2 + k ∧ 2 + k < 2 + sfs_freemap_blocks sfs₁.super then _ else _ : Bytes) o = _
          rw [if_pos (by omega), Nat.add_sub_cancel_left]
          rfl
      refine ⟨haside.counted h₁.counted, { hs₁ with saved := fun _ => hsaved }, hsaved, ?_, ?_, ?_⟩
      · intro i hi
        unfold Clean
        rw [haside.view_eq hcore₁.pos hi]
        exact hclean i hi
      · intro i hi
        rw [haside.view_eq hcore₁.pos hi]
        exact h₁.quiet.settled i hi
      · intro hc
        rw [haside.slots hcore₁.pos, haside.freemap, haside.super]
        exact hcov hc
    -- Not marked: they are on the disk since the last time (`Stored.saved`).
    · have hrun : sfs_sync_freemaps sfs₁ = .ok (.ok (), sfs₁) := by
        unfold sfs_sync_freemaps
        show (Routine.when (sfs₁.super_dirty = true) _) sfs₁ = _
        rw [Routine.when, if_neg hdirty]
        rfl
      unfold Routine.Ends
      rw [hrun]
      exact ⟨h₁.counted, hs₁, hs₁.saved ((Bool.not_eq_true _).mp hdirty), hclean,
        h₁.quiet.settled, hcov⟩
  · exact fun _ _ h => h
  · exact fun _ h => h

end Ucore.Proofs.Fs
