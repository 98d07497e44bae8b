import Ucore.Proofs.Fs.Codec
import Ucore.Proofs.Fs.Io

/-!
# `Ucore.Proofs.Fs.Volume`: inodes in memory and on the disk

`Volume` is the invariant of a mounted volume. `Quiet` says that files have been written back
or dropped from memory and that nothing else has changed; this is what loading, releasing and
looking up inodes do.

## The invariant

`Core` (`Ucore.Proofs.Fs.Layout`) places the blocks. `Volume` adds three things:

* `FileOk` for each inode number of the volume, whether the inode is in memory or not: its blocks
  are mapped, its fields fit, and an entry of a directory names an inode of the volume;
* `InodeOk` for each inode in memory: it is reclaimed once, it has a reference, and it is open at
  most as often as it has references;
* the list of inodes has each inode in memory once.

An inode in memory that is not marked to be written may differ from the one on the disk in the
number of blocks. `sfs_bmap_load_nolock` counts a block up, without a mark, that an indirect block
had already. The fields `clean`, `cleanBlocks` and `cleanLow` of `FileOk` say how far this goes.

## How a call is shown to be quiet

Each change of an inode in memory is one of four: other counts, written back, dropped, loaded
(`withCounts`, `withSynced`, `withDropped`, `withLoaded`). `Quiet.of_node` reduces them to what
happens to the one file, and `Volume.quiet` gets the invariant back when the counts are in order.
-/

set_option autoImplicit false

namespace Ucore.Proofs.Fs

open Ucore.Lib Ucore.Fs

/-! ### One file -/

/-- The inode number in an entry of a directory. -/
def inoAt (content : Bytes) (k : Nat) : Nat := content.load (4096 * k) 4

/-- The invariant of one file of the volume. -/
structure FileOk (I : Finset Nat) (v : FileView) : Prop where
  mapped : Mapped v
  direct : ∀ k, v.din.blocks ≤ k → k < 12 → v.entry k = 0
  /-- What is not to be written differs at most in the number of blocks, and only when blocks
  have been reached through an indirect block that was there. -/
  clean : v.dirty = false → v.disk = { v.din with blocks := v.disk.blocks }
  cleanBlocks : v.dirty = false → v.disk.blocks ≤ v.din.blocks
  cleanLow : v.dirty = false → v.disk.blocks ≠ v.din.blocks →
    12 ≤ v.disk.blocks ∧ v.din.indirect ≠ 0
  typeFits : v.din.type < 2 ^ 16
  nlinks : v.din.nlinks ≠ 0
  nlinksFits : v.din.nlinks < 2 ^ 16
  size : v.din.size < 2 ^ 32
  reach : v.din.type = SFS_TYPE_FILE → v.din.size / 4096 ≤ v.din.blocks
  reachDisk : v.din.type = SFS_TYPE_FILE → v.dirty = false → v.din.size / 4096 ≤ v.disk.blocks
  dir : v.din.type = SFS_TYPE_DIR → ∀ k, k < v.din.blocks →
    inoAt v.content k = 0 ∨ inoAt v.content k ∈ I

/-- The file has been written back. -/
def FileView.flushed (v : FileView) : FileView := { v with dirty := false, disk := v.din }

/-- The file has been dropped from memory. -/
def FileView.dropped (v : FileView) : FileView := { v with din := v.disk }

/-- The file has been written back or dropped, if anything. -/
inductive Settled (v : FileView) : FileView → Prop
  | same : Settled v v
  | flushed (h : v.dirty = true) : Settled v v.flushed
  | dropped (h : v.dirty = false) : Settled v v.dropped

variable {I : Finset Nat} {i j k b : Nat} {sfs sfs' sfs'' : Sfs} {sin : SfsInode}
  {u v w : FileView}

/-- A file that has been settled twice has been settled. -/
theorem Settled.trans (h : Settled u v) (h' : Settled v w) : Settled u w := by
  cases h with
  | same => exact h'
  | flushed hu =>
      cases h' with
      | same => exact .flushed hu
      | flushed hv => cases hv
      | dropped _ => exact .flushed hu
  | dropped hu =>
      cases h' with
      | same => exact .dropped hu
      | flushed hv =>
          have hd : u.dirty = true := hv
          rw [hu] at hd
          cases hd
      | dropped _ => exact .dropped hu

/-- Writing back and dropping leave the block map. -/
theorem Settled.entry (h : Settled v w) : w.entry = v.entry := by
  cases h <;> rfl

/-- Writing back and dropping leave the bytes. -/
theorem Settled.content (h : Settled v w) : w.content = v.content := by
  cases h <;> rfl

/-- At most the number of blocks changes in memory. -/
theorem Settled.din (h : Settled v w) (hok : FileOk I v) :
    w.din = { v.din with blocks := w.din.blocks } := by
  cases h with
  | same => rfl
  | flushed _ => rfl
  | dropped hd => exact hok.clean hd

/-- Dropping an inode can only lower its number of blocks. -/
theorem Settled.blocks_le (h : Settled v w) (hok : FileOk I v) :
    w.din.blocks ≤ v.din.blocks := by
  cases h with
  | same => exact le_refl _
  | flushed _ => exact le_refl _
  | dropped hd => exact hok.cleanBlocks hd

/-- Writing back and dropping keep the invariant of the file. -/
theorem Settled.ok (h : Settled v w) (hok : FileOk I v) : FileOk I w := by
  cases h with
  | same => exact hok
  | flushed hd =>
      exact
        { hok with
          clean := fun _ => rfl
          cleanBlocks := fun _ => le_refl _
          cleanLow := fun _ hne => absurd rfl hne
          reachDisk := fun ht _ => hok.reach ht }
  | dropped hd =>
      have hclean := hok.clean hd
      have hle := hok.cleanBlocks hd
      have htype : v.disk.type = v.din.type := by rw [hclean]
      have hsize : v.disk.size = v.din.size := by rw [hclean]
      have hlinks : v.disk.nlinks = v.din.nlinks := by rw [hclean]
      refine ⟨?_, ?_, fun _ => rfl, fun _ => le_refl _, fun _ hne => absurd rfl hne, ?_, ?_, ?_,
        ?_, ?_, ?_, ?_⟩
      · intro k hk
        exact hok.mapped k (lt_of_lt_of_le hk hle)
      · intro k hk hlow
        apply hok.direct k _ hlow
        replace hk : v.disk.blocks ≤ k := hk
        by_contra hlt
        have h := (hok.cleanLow hd (by omega)).1
        omega
      · show v.disk.type < _
        rw [htype]
        exact hok.typeFits
      · show v.disk.nlinks ≠ 0
        rw [hlinks]
        exact hok.nlinks
      · show v.disk.nlinks < _
        rw [hlinks]
        exact hok.nlinksFits
      · show v.disk.size < _
        rw [hsize]
        exact hok.size
      · intro ht
        show v.disk.size / 4096 ≤ v.disk.blocks
        rw [hsize]
        exact hok.reachDisk (htype.symm.trans ht) hd
      · intro ht _
        show v.disk.size / 4096 ≤ v.disk.blocks
        rw [hsize]
        exact hok.reachDisk (htype.symm.trans ht) hd
      · intro ht k hk
        exact hok.dir (htype.symm.trans ht) k (lt_of_lt_of_le hk hle)

/-! ### The volume -/

/-- The number of references to an inode, zero when it is not in memory. -/
def refs (sfs : Sfs) (i : Nat) : Nat := ((sfs.inodes i).map fun sin => sin.ref_count).getD 0

/-- The number of times that an inode is open. -/
def opens (sfs : Sfs) (i : Nat) : Nat := ((sfs.inodes i).map fun sin => sin.open_count).getD 0

/-- The invariant of an inode in memory. -/
structure InodeOk (I : Finset Nat) (i : Nat) (sin : SfsInode) : Prop where
  mem : i ∈ I
  reclaim : sin.reclaim_count = 1
  refs : 0 < sin.ref_count
  opens : sin.open_count ≤ sin.ref_count

/-- The invariant of a mounted volume. -/
structure Volume (I : Finset Nat) (sfs : Sfs) : Prop where
  core : Core I sfs
  file : ∀ i ∈ I, FileOk I (view sfs i)
  inode : ∀ i sin, sfs.inodes i = some sin → InodeOk I i sin
  list : ∀ i, i ∈ sfs.inode_list ↔ (sfs.inodes i).isSome = true
  nodup : sfs.inode_list.Nodup

/-- Files have been written back or dropped, and nothing else has changed. -/
structure Quiet (I : Finset Nat) (sfs sfs' : Sfs) : Prop where
  super : sfs'.super = sfs.super
  freemap : sfs'.freemap = sfs.freemap
  superDirty : sfs'.super_dirty = sfs.super_dirty
  zero : sfs'.dev 0 = sfs.dev 0
  map : ∀ k, slot I sfs (.freemap k) ≠ 0 →
    sfs'.dev (slot I sfs (.freemap k)) = sfs.dev (slot I sfs (.freemap k))
  slots : slot I sfs' = slot I sfs
  settled : ∀ i ∈ I, Settled (view sfs i) (view sfs' i)

/-- Nothing has been done. -/
theorem Quiet.refl (sfs : Sfs) : Quiet I sfs sfs :=
  ⟨rfl, rfl, rfl, rfl, fun _ _ => rfl, rfl, fun _ _ => .same⟩

/-- One quiet call after another. -/
theorem Quiet.trans (h : Quiet I sfs sfs') (h' : Quiet I sfs' sfs'') : Quiet I sfs sfs'' where
  super := h'.super.trans h.super
  freemap := h'.freemap.trans h.freemap
  superDirty := h'.superDirty.trans h.superDirty
  zero := h'.zero.trans h.zero
  map := by
    intro k hk
    have h₂ := h'.map k
    rw [h.slots] at h₂
    exact (h₂ hk).trans (h.map k hk)
  slots := h'.slots.trans h.slots
  settled := fun i hi => (h.settled i hi).trans (h'.settled i hi)

/-- A quiet call moves no block. -/
theorem Quiet.core (h : Quiet I sfs sfs') (hcore : Core I sfs) : Core I sfs' where
  pool := hcore.pool.congr h.freemap h.super
  owned := by
    rw [h.slots, h.freemap]
    exact hcore.owned
  lt := by
    rw [h.slots, h.super]
    exact hcore.lt
  fits := by
    rw [h.super]
    exact hcore.fits
  pos := hcore.pos

/-- A quiet call loses no block. -/
theorem Quiet.covered (h : Quiet I sfs sfs')
    (hc : Covered (slot I sfs) sfs.freemap.isFree sfs.super.blocks) :
    Covered (slot I sfs') sfs'.freemap.isFree sfs'.super.blocks := by
  rw [h.slots, h.freemap, h.super]
  exact hc

/-- The references of an inode in memory. -/
theorem refs_eq (h : sfs.inodes i = some sin) : refs sfs i = sin.ref_count := by
  unfold refs
  rw [h]
  rfl

/-- The opens of an inode in memory. -/
theorem opens_eq (h : sfs.inodes i = some sin) : opens sfs i = sin.open_count := by
  unfold opens
  rw [h]
  rfl

/-- A change of an inode, in memory and in its block, that at most writes the file back or
drops it. -/
theorem Quiet.of_node (hcore : Core I sfs) (hi : i ∈ I) (hsuper : sfs'.super = sfs.super)
    (hfreemap : sfs'.freemap = sfs.freemap) (hdirty : sfs'.super_dirty = sfs.super_dirty)
    (hinodes : ∀ j, j ≠ i → sfs'.inodes j = sfs.inodes j)
    (hdev : ∀ b, b ≠ i → sfs'.dev b = sfs.dev b)
    (hsettled : Settled (view sfs i) (view sfs' i))
    (hind : (view sfs' i).din.indirect = (view sfs i).din.indirect) : Quiet I sfs sfs' := by
  have hslot : slot I sfs (.inode i) = i := slot_inode hi
  have hother : ∀ x, x ≠ .inode i → slot I sfs x ≠ 0 →
      sfs'.dev (slot I sfs x) = sfs.dev (slot I sfs x) := by
    intro x hx hne
    apply hdev
    rw [← hslot]
    exact hcore.ne_slot hne hx
  refine ⟨hsuper, hfreemap, hdirty, hdev 0 (Ne.symm (hcore.pos i hi)),
    fun k hk => hother _ (by simp) hk, ?_, ?_⟩
  · apply slots_eq (i := i) hcore.pos
    · rw [hsuper]
    · exact hinodes
    · intro x hx hne
      refine hother x ?_ hne
      rintro rfl
      exact hx rfl
    · exact hind
    · exact hsettled.entry
  · intro j hj
    by_cases hji : j = i
    · rw [hji]
      exact hsettled
    · have hview : view sfs' j = view sfs j := by
        apply view_congr hj (hcore.pos j hj) (hinodes j hji)
        intro x hx hne
        refine hother x ?_ hne
        rintro rfl
        exact hji (Option.some.inj hx).symm
      rw [hview]
      exact .same

/-- A quiet call keeps the volume when it keeps the inodes in memory and their list. -/
theorem Volume.quiet (h : Volume I sfs) (hquiet : Quiet I sfs sfs')
    (hinode : ∀ i sin, sfs'.inodes i = some sin → InodeOk I i sin)
    (hlist : ∀ i, i ∈ sfs'.inode_list ↔ (sfs'.inodes i).isSome = true)
    (hnodup : sfs'.inode_list.Nodup) : Volume I sfs' where
  core := hquiet.core h.core
  file := fun i hi => (hquiet.settled i hi).ok (h.file i hi)
  inode := hinode
  list := hlist
  nodup := hnodup

/-- The numbers of an inode of the volume fit in their fields. -/
theorem Volume.fits (h : Volume I sfs) (hi : i ∈ I) : DinFits (view sfs i).din := by
  have hok := h.file i hi
  have hentry : ∀ k, (view sfs i).entry k < 2 ^ 32 := by
    intro k
    by_cases hzero : (view sfs i).entry k = 0
    · rw [hzero]
      decide
    · have hlt := h.core.lt (.data i k)
      rw [slot_data hi] at hlt
      exact lt_trans (lt_trans (hlt hzero) h.core.fits) (by decide)
  refine ⟨hok.size, hok.typeFits, hok.nlinksFits, ?_, ?_, ?_⟩
  · by_contra hlarge
    exact hok.mapped 1036 (by omega) (entryAt_far (le_refl _))
  · intro k
    have hk := hentry k.val
    have hdirect : (view sfs i).entry k.val = (view sfs i).din.direct k := dif_pos k.isLt
    rw [hdirect] at hk
    exact hk
  · by_cases hzero : (view sfs i).din.indirect = 0
    · rw [hzero]
      decide
    · have hlt := h.core.lt (.indirect i)
      rw [slot_indirect hi] at hlt
      exact lt_trans (lt_trans (hlt hzero) h.core.fits) (by decide)

/-! ### Inodes in memory -/

/-- An inode in memory with other counts. -/
def withCounts (sfs : Sfs) (i : Nat) (sin : SfsInode) (ref_count open_count : Nat) : Sfs :=
  { sfs with
    inodes := Function.update sfs.inodes i
      (some { sin with ref_count := ref_count, open_count := open_count }) }

/-- An inode that has been written back. -/
def withSynced (sfs : Sfs) (i : Nat) (sin : SfsInode) : Sfs :=
  { sfs with
    inodes := Function.update sfs.inodes i (some { sin with dirty := false })
    dev := Function.update sfs.dev i ((sfs.dev i).overlay 0 sin.din.encode) }

/-- An inode that has been dropped. -/
def withDropped (sfs : Sfs) (i : Nat) : Sfs :=
  { sfs with
    inode_list := sfs.inode_list.erase i
    inodes := Function.update sfs.inodes i none }

/-- An inode that has been loaded. -/
def withLoaded (sfs : Sfs) (i : Nat) : Sfs :=
  { sfs with
    inode_list := i :: sfs.inode_list
    inodes := Function.update sfs.inodes i
      (some { din := SfsDiskInode.decode (sfs.dev i), dirty := false, reclaim_count := 1,
              ref_count := 1, open_count := 0 }) }

/-- Changing the counts of an inode is quiet. -/
theorem quiet_withCounts {r o : Nat} (h : Volume I sfs) (hsin : sfs.inodes i = some sin) :
    Quiet I sfs (withCounts sfs i sin r o) := by
  have hnew : (withCounts sfs i sin r o).inodes i =
      some { sin with ref_count := r, open_count := o } := Function.update_self ..
  have hview : view (withCounts sfs i sin r o) i = view sfs i := by
    rw [view_eq hnew, view_eq hsin]
    rfl
  apply Quiet.of_node (i := i) h.core (h.inode i sin hsin).mem
  · rfl
  · rfl
  · rfl
  · intro j hj
    exact Function.update_of_ne hj _ _
  · exact fun _ _ => rfl
  · rw [hview]
    exact .same
  · rw [hview]

/-- Writing an inode back is quiet. -/
theorem quiet_withSynced (h : Volume I sfs) (hsin : sfs.inodes i = some sin)
    (hdirty : sin.dirty = true) : Quiet I sfs (withSynced sfs i sin) := by
  have hi := (h.inode i sin hsin).mem
  have hnew : (withSynced sfs i sin).inodes i = some { sin with dirty := false } :=
    Function.update_self ..
  have hnode : (withSynced sfs i sin).dev i = (sfs.dev i).overlay 0 sin.din.encode :=
    Function.update_self ..
  have hfits := h.fits hi
  have hslot : slot I sfs (.inode i) = i := slot_inode hi
  have hdev : ∀ x, x ≠ .inode i → slot I sfs x ≠ 0 →
      (withSynced sfs i sin).dev (slot I sfs x) = sfs.dev (slot I sfs x) := by
    intro x hx hne
    apply Function.update_of_ne
    intro heq
    exact h.core.ne_slot hne hx (heq.trans hslot.symm)
  have hview : view (withSynced sfs i sin) i = (view sfs i).flushed := by
    have hentry : entryAt sin.din (withSynced sfs i sin).dev = entryAt sin.din sfs.dev := by
      apply entryAt_congr rfl rfl
      intro hne
      have hd := hdev (.indirect i) (by simp)
      rw [slot_indirect hi, view_eq hsin] at hd
      exact hd hne
    have hcontent : contentAt sin.din (withSynced sfs i sin).dev =
        contentAt sin.din sfs.dev := by
      apply contentAt_congr hentry
      intro k hk
      have hd := hdev (.data i k) (by simp)
      rw [slot_data hi, view_eq hsin] at hd
      exact hd hk
    rw [view_eq hsin] at hfits
    rw [view_eq hnew, view_eq hsin, hentry, hcontent, hnode, decode_encode hfits]
    rfl
  apply Quiet.of_node (i := i) h.core hi
  · rfl
  · rfl
  · rfl
  · intro j hj
    exact Function.update_of_ne hj _ _
  · intro b hb
    exact Function.update_of_ne hb _ _
  · rw [hview]
    refine .flushed ?_
    rw [view_eq hsin]
    exact hdirty
  · rw [hview]
    rfl

/-- Dropping an inode that is written back is quiet. -/
theorem quiet_withDropped (h : Volume I sfs) (hsin : sfs.inodes i = some sin)
    (hdirty : sin.dirty = false) : Quiet I sfs (withDropped sfs i) := by
  have hi := (h.inode i sin hsin).mem
  have hclean := (h.file i hi).clean (by rw [view_eq hsin]; exact hdirty)
  rw [view_eq hsin] at hclean
  replace hclean : SfsDiskInode.decode (sfs.dev i) =
    { sin.din with blocks := (SfsDiskInode.decode (sfs.dev i)).blocks } := hclean
  have hview : view (withDropped sfs i) i = (view sfs i).dropped := by
    have hnone : (withDropped sfs i).inodes i = none := Function.update_self ..
    have hentry : entryAt (SfsDiskInode.decode (sfs.dev i)) sfs.dev =
        entryAt sin.din sfs.dev := by
      apply entryAt_congr
      · rw [hclean]
      · rw [hclean]
      · exact fun _ => rfl
    have hcontent : contentAt (SfsDiskInode.decode (sfs.dev i)) sfs.dev =
        contentAt sin.din sfs.dev := contentAt_congr hentry fun _ _ => rfl
    unfold view dinOf
    rw [hnone, hsin]
    show FileView.mk _ _ _ (entryAt (SfsDiskInode.decode (sfs.dev i)) sfs.dev)
      (contentAt (SfsDiskInode.decode (sfs.dev i)) sfs.dev) = _
    rw [hentry, hcontent]
    show FileView.mk _ false _ _ _ = FileView.mk _ sin.dirty _ _ _
    rw [hdirty]
    rfl
  apply Quiet.of_node (i := i) h.core hi
  · rfl
  · rfl
  · rfl
  · intro j hj
    exact Function.update_of_ne hj _ _
  · exact fun _ _ => rfl
  · rw [hview]
    refine .dropped ?_
    rw [view_eq hsin]
    exact hdirty
  · rw [hview, view_eq hsin]
    show (SfsDiskInode.decode (sfs.dev i)).indirect = sin.din.indirect
    rw [hclean]

/-- Loading an inode is quiet. -/
theorem quiet_withLoaded (h : Volume I sfs) (hi : i ∈ I) (hnone : sfs.inodes i = none) :
    Quiet I sfs (withLoaded sfs i) := by
  have hview : view (withLoaded sfs i) i = view sfs i := by
    have hnew : (withLoaded sfs i).inodes i =
        some { din := SfsDiskInode.decode (sfs.dev i), dirty := false, reclaim_count := 1,
               ref_count := 1, open_count := 0 } := Function.update_self ..
    rw [view_eq hnew]
    unfold view dinOf
    rw [hnone]
    rfl
  apply Quiet.of_node (i := i) h.core hi
  · rfl
  · rfl
  · rfl
  · intro j hj
    exact Function.update_of_ne hj _ _
  · exact fun _ _ => rfl
  · rw [hview]
    exact .same
  · rw [hview]

end Ucore.Proofs.Fs
