import Ucore.Fs.File
import Ucore.Lib.Owners

/-!
# `Ucore.Proofs.Fs.Layout`: what a volume holds

A file has a block map and bytes: `entryAt` is the block behind an index of the map, and
`contentAt` the byte at a position, zero where no block is mapped. `FileView` is what is
known of one file, and `Slot` the places in a volume where a block number can stand.

## The invariant of the blocks

* `Pool`: the allocator is sound. The superblock is not free, a free block is one of the volume, and
  `unused_blocks` is the number of bits that are set in the free map.
* `Core`: no block is in two places or in a place and free, and every place holds a block of the
  volume. The places are the blocks of the free map, the block of each inode, its direct entries,
  its indirect block, and the entries of the indirect block.

`Owned` says this for any map of places to blocks. It does not say that a block in use has a place:
that is `Covered`, which holds between two calls (`Ucore.Proofs.Fs.Calls`).

## Two states

`Kept` compares two states of a volume of which only one file may have changed: the places of all
others, their inodes and their bytes are the same. It is what a function that works on one inode has
to show so that the others stay sound.

The set `I` of the inodes of the volume does not change: no call makes or removes a file.
-/

set_option autoImplicit false

namespace Ucore.Proofs.Fs

open Ucore.Lib Ucore.Fs

/-! ### One file -/

/-- The entry of the block map, zero where nothing is mapped. -/
def entryAt (din : SfsDiskInode) (dev : Nat → Bytes) (k : Nat) : Nat :=
  if h : k < 12 then din.direct ⟨k, h⟩
  else if din.indirect ≠ 0 ∧ k < 1036 then (dev din.indirect).load ((k - 12) * 4) 4
  else 0

/-- The bytes of a file, zero where nothing is mapped. -/
def contentAt (din : SfsDiskInode) (dev : Nat → Bytes) : Bytes := fun pos =>
  if entryAt din dev (pos / 4096) = 0 then 0
  else dev (entryAt din dev (pos / 4096)) (pos % 4096)

/-- A file: the inode in memory or else on the disk, the mark that it is to be written, the
inode on the disk, the block map and the bytes. -/
@[ext] structure FileView where
  din : SfsDiskInode
  dirty : Bool
  disk : SfsDiskInode
  entry : Nat → Nat
  content : Bytes

/-- The inode, in memory or else on the disk. -/
def dinOf (sfs : Sfs) (i : Nat) : SfsDiskInode :=
  ((sfs.inodes i).map fun sin => sin.din).getD (SfsDiskInode.decode (sfs.dev i))

/-- A file of the volume. -/
def view (sfs : Sfs) (i : Nat) : FileView where
  din := dinOf sfs i
  dirty := ((sfs.inodes i).map fun sin => sin.dirty).getD false
  disk := SfsDiskInode.decode (sfs.dev i)
  entry := entryAt (dinOf sfs i) sfs.dev
  content := contentAt (dinOf sfs i) sfs.dev

section
variable {din din' : SfsDiskInode} {dev dev' : Nat → Bytes} {k b : Nat}

/-- The block map ends at 1036 entries. -/
theorem entryAt_far (h : 1036 ≤ k) : entryAt din dev k = 0 := by
  unfold entryAt
  rw [dif_neg (by omega), if_neg (by omega)]

/-- Without an indirect block only the direct entries are mapped. -/
theorem entryAt_no_indirect (h : 12 ≤ k) (hind : din.indirect = 0) : entryAt din dev k = 0 := by
  unfold entryAt
  rw [dif_neg (by omega), if_neg fun hne => hne.1 hind]

/-- An entry behind the direct ones is read from the indirect block. -/
theorem entryAt_indirect (h : 12 ≤ k) (hk : k < 1036) (hind : din.indirect ≠ 0) :
    entryAt din dev k = (dev din.indirect).load ((k - 12) * 4) 4 := by
  unfold entryAt
  rw [dif_neg (by omega), if_pos ⟨hind, hk⟩]

/-- The block map is that of another state with the same entries and indirect block. -/
theorem entryAt_congr (hdirect : din'.direct = din.direct) (hind : din'.indirect = din.indirect)
    (hdev : din.indirect ≠ 0 → dev' din.indirect = dev din.indirect) :
    entryAt din' dev' = entryAt din dev := by
  funext k
  unfold entryAt
  rw [hdirect, hind]
  split
  · rfl
  · by_cases hk : din.indirect ≠ 0 ∧ k < 1036
    · rw [if_pos hk, if_pos hk, hdev hk.1]
    · rw [if_neg hk, if_neg hk]

/-- A write to a direct entry changes this entry and no other. -/
theorem entryAt_setDirect (hk : k < 12) :
    entryAt { din with direct := Function.update din.direct ⟨k, hk⟩ b } dev =
      Function.update (entryAt din dev) k b := by
  funext c
  by_cases hc : c = k
  · subst hc
    rw [Function.update_self]
    unfold entryAt
    rw [dif_pos hk]
    exact Function.update_self ..
  · rw [Function.update_of_ne hc]
    unfold entryAt
    by_cases hlt : c < 12
    · rw [dif_pos hlt, dif_pos hlt]
      exact Function.update_of_ne (by simpa using hc) _ _
    · rw [dif_neg hlt, dif_neg hlt]

/-- An entry is written to the indirect block. -/
theorem entryAt_store (hk : 12 ≤ k) (hk' : k < 1036) (hind : din.indirect ≠ 0) (hb : b < 2 ^ 32)
    (hself : dev' din.indirect = (dev din.indirect).store ((k - 12) * 4) 4 b) :
    entryAt din dev' = Function.update (entryAt din dev) k b := by
  funext c
  by_cases hc : c = k
  · subst hc
    rw [Function.update_self, entryAt_indirect hk hk' hind, hself]
    exact Bytes.load_store_same hb
  · rw [Function.update_of_ne hc]
    unfold entryAt
    by_cases hlt : c < 12
    · rw [dif_pos hlt, dif_pos hlt]
    · rw [dif_neg hlt, dif_neg hlt]
      by_cases hfar : din.indirect ≠ 0 ∧ c < 1036
      · rw [if_pos hfar, if_pos hfar, hself]
        exact Bytes.load_store_of_disjoint (by omega)
      · rw [if_neg hfar, if_neg hfar]

/-- The bytes depend on the block map and on the blocks that are mapped. -/
theorem contentAt_congr (hentry : entryAt din' dev' = entryAt din dev)
    (hdev : ∀ k, entryAt din dev k ≠ 0 → dev' (entryAt din dev k) = dev (entryAt din dev k)) :
    contentAt din' dev' = contentAt din dev := by
  funext pos
  unfold contentAt
  rw [hentry]
  by_cases hzero : entryAt din dev (pos / 4096) = 0
  · rw [if_pos hzero, if_pos hzero]
  · rw [if_neg hzero, if_neg hzero, hdev _ hzero]

/-- The bytes of a mapped block are replaced. -/
theorem contentAt_put (hmap : entryAt din dev' = entryAt din dev) (hk : entryAt din dev k = b)
    (hb : b ≠ 0) (hdev : ∀ c, c ≠ k → entryAt din dev c ≠ 0 →
      dev' (entryAt din dev c) = dev (entryAt din dev c)) :
    contentAt din dev' = fun pos =>
      if pos / 4096 = k then dev' b (pos % 4096) else contentAt din dev pos := by
  funext pos
  unfold contentAt
  rw [hmap]
  by_cases hpos : pos / 4096 = k
  · rw [hpos, hk, if_neg hb, if_pos rfl]
  · rw [if_neg hpos]
    by_cases hzero : entryAt din dev (pos / 4096) = 0
    · rw [if_pos hzero, if_pos hzero]
    · rw [if_neg hzero, if_neg hzero, hdev _ hpos hzero]

/-- A cleared block in the place of none does not show. -/
theorem contentAt_update (hentry : entryAt din' dev' = Function.update (entryAt din dev) k b)
    (hzero : entryAt din dev k = 0) (hb : dev' b = fun _ => 0)
    (hdev : ∀ k, entryAt din dev k ≠ 0 → dev' (entryAt din dev k) = dev (entryAt din dev k)) :
    contentAt din' dev' = contentAt din dev := by
  funext pos
  unfold contentAt
  rw [hentry]
  by_cases hk : pos / 4096 = k
  · rw [hk, Function.update_self, hzero, if_pos rfl, hb]
    exact ite_self 0
  · rw [Function.update_of_ne hk]
    by_cases hzero' : entryAt din dev (pos / 4096) = 0
    · rw [if_pos hzero', if_pos hzero']
    · rw [if_neg hzero', if_neg hzero', hdev _ hzero']

end

/-! ### The places of block numbers -/

/-- The places where a block number can stand: the free map, the inodes, the indirect blocks
of inodes, and the entries of block maps. -/
inductive Slot where
  | freemap (k : Nat)
  | inode (i : Nat)
  | indirect (i : Nat)
  | data (i k : Nat)
  deriving DecidableEq

/-- The inode that a place belongs to. -/
def Slot.owner : Slot → Option Nat
  | .freemap _ => none
  | .inode i => some i
  | .indirect i => some i
  | .data i _ => some i

/-- The block in a place, zero when there is none. -/
def slot (I : Finset Nat) (sfs : Sfs) : Slot → Nat
  | .freemap k => if k < sfs_freemap_blocks sfs.super then 2 + k else 0
  | .inode i => if i ∈ I then i else 0
  | .indirect i => if i ∈ I then (view sfs i).din.indirect else 0
  | .data i k => if i ∈ I then (view sfs i).entry k else 0

/-- The allocator is sound: the free blocks are counted and lie in the volume. -/
structure Pool (sfs : Sfs) : Prop where
  zero : sfs.freemap.isFree 0 = false
  bound : ∀ b, sfs.freemap.isFree b = true → b < sfs.super.blocks
  count : sfs.super.unused_blocks = freeCount sfs.freemap.isFree sfs.super.blocks
  bits : sfs.super.blocks ≤ sfs.freemap.nbits
  words : sfs.freemap.nbits = sfs.freemap.nwords * 32

/-- The allocator is sound, and no block is in two places, or free and in a place. The volume has
fewer than `2 ^ 20` blocks, so that `blkno * SFS_BLKSIZE`, the position of a block on the device, is
not cut to 32 bits. -/
structure Core (I : Finset Nat) (sfs : Sfs) : Prop where
  pool : Pool sfs
  owned : Owned (slot I sfs) sfs.freemap.isFree
  lt : ∀ x, slot I sfs x ≠ 0 → slot I sfs x < sfs.super.blocks
  fits : sfs.super.blocks < 2 ^ 20
  pos : ∀ i ∈ I, i ≠ 0

/-- Only the file `i` may have changed, and not its inode on the disk. -/
structure Kept (I : Finset Nat) (i : Nat) (sfs sfs' : Sfs) : Prop where
  super : sfs'.super = { sfs.super with unused_blocks := sfs'.super.unused_blocks }
  nbits : sfs'.freemap.nbits = sfs.freemap.nbits
  nwords : sfs'.freemap.nwords = sfs.freemap.nwords
  superDirty : sfs'.super_dirty = false →
    sfs.super_dirty = false ∧ sfs'.super = sfs.super ∧ sfs'.freemap = sfs.freemap
  list : sfs'.inode_list = sfs.inode_list
  other : ∀ j, j ≠ i → sfs'.inodes j = sfs.inodes j
  self : ∀ sin, sfs.inodes i = some sin →
    ∃ din dirty, sfs'.inodes i = some { sin with din := din, dirty := dirty }
  slots : ∀ x, x.owner ≠ some i → slot I sfs' x = slot I sfs x
  dev : ∀ x, x.owner ≠ some i → slot I sfs x ≠ 0 →
    sfs'.dev (slot I sfs x) = sfs.dev (slot I sfs x)
  node : sfs'.dev i = sfs.dev i
  zero : sfs'.dev 0 = sfs.dev 0
  covered : Covered (slot I sfs) sfs.freemap.isFree sfs.super.blocks →
    Covered (slot I sfs') sfs'.freemap.isFree sfs'.super.blocks

section
variable {I : Finset Nat} {i j : Nat} {sfs sfs' sfs'' : Sfs}

/-- The file of an inode that is in memory. -/
theorem view_eq {sin : SfsInode} (h : sfs.inodes i = some sin) :
    view sfs i =
      { din := sin.din, dirty := sin.dirty, disk := SfsDiskInode.decode (sfs.dev i),
        entry := entryAt sin.din sfs.dev, content := contentAt sin.din sfs.dev } := by
  unfold view dinOf
  rw [h]
  rfl

/-- The free map stands behind the superblock and the root. -/
theorem slot_freemap (k : Nat) :
    slot I sfs (.freemap k) = if k < sfs_freemap_blocks sfs.super then 2 + k else 0 := rfl

/-- An inode stands in the block of its number. -/
theorem slot_inode (h : i ∈ I) : slot I sfs (.inode i) = i := if_pos h

/-- The indirect block of a file. -/
theorem slot_indirect (h : i ∈ I) : slot I sfs (.indirect i) = (view sfs i).din.indirect :=
  if_pos h

/-- The blocks in the block map of a file. -/
theorem slot_data (h : i ∈ I) (k : Nat) : slot I sfs (.data i k) = (view sfs i).entry k :=
  if_pos h

/-- Only the files of the volume have blocks. -/
theorem mem_of_slot_ne_zero {x : Slot} (hx : slot I sfs x ≠ 0) (h : x.owner = some i) :
    i ∈ I := by
  by_contra hi
  cases x with
  | freemap k => cases h
  | inode j =>
      cases h
      exact hx (if_neg hi)
  | indirect j =>
      cases h
      exact hx (if_neg hi)
  | data j k =>
      cases h
      exact hx (if_neg hi)

/-- A file is the same when its inode in memory and its blocks are. -/
theorem view_congr (hi : i ∈ I) (hpos : i ≠ 0) (hinode : sfs'.inodes i = sfs.inodes i)
    (hdev : ∀ x, x.owner = some i → slot I sfs x ≠ 0 →
      sfs'.dev (slot I sfs x) = sfs.dev (slot I sfs x)) :
    view sfs' i = view sfs i := by
  have hnode : sfs'.dev i = sfs.dev i := by
    have h := hdev (.inode i) rfl
    rw [slot_inode hi] at h
    exact h hpos
  have hdin : dinOf sfs' i = dinOf sfs i := by
    unfold dinOf
    rw [hinode, hnode]
  have hentry : entryAt (dinOf sfs' i) sfs'.dev = entryAt (dinOf sfs i) sfs.dev := by
    rw [hdin]
    apply entryAt_congr rfl rfl
    intro hind
    have h := hdev (.indirect i) rfl
    rw [slot_indirect hi] at h
    exact h hind
  have hcontent : contentAt (dinOf sfs' i) sfs'.dev = contentAt (dinOf sfs i) sfs.dev := by
    apply contentAt_congr hentry
    intro k hk
    have h := hdev (.data i k) rfl
    rw [slot_data hi] at h
    exact h hk
  unfold view
  rw [hentry, hcontent, hdin, hinode, hnode]

/-- The places of a file are the same when its inode in memory and its blocks are. -/
theorem slot_congr {x : Slot} (hpos : ∀ j ∈ I, j ≠ 0) (hx : x.owner = some i)
    (hinode : sfs'.inodes i = sfs.inodes i)
    (hdev : ∀ x, x.owner = some i → slot I sfs x ≠ 0 →
      sfs'.dev (slot I sfs x) = sfs.dev (slot I sfs x)) :
    slot I sfs' x = slot I sfs x := by
  by_cases hi : i ∈ I
  · have hview := view_congr hi (hpos i hi) hinode hdev
    cases x with
    | freemap k => cases hx
    | inode j => rfl
    | indirect j =>
        cases hx
        rw [slot_indirect hi, slot_indirect hi, hview]
    | data j k =>
        cases hx
        rw [slot_data hi, slot_data hi, hview]
  · have hzero : ∀ sfs : Sfs, slot I sfs x = 0 := fun sfs => by
      by_contra h
      exact hi (mem_of_slot_ne_zero h hx)
    rw [hzero, hzero]

/-- No place has changed when only one file has, and neither its block map. -/
theorem slots_eq (hpos : ∀ j ∈ I, j ≠ 0) (hblocks : sfs'.super.blocks = sfs.super.blocks)
    (hinodes : ∀ j, j ≠ i → sfs'.inodes j = sfs.inodes j)
    (hdev : ∀ x, x.owner ≠ some i → slot I sfs x ≠ 0 →
      sfs'.dev (slot I sfs x) = sfs.dev (slot I sfs x))
    (hind : (view sfs' i).din.indirect = (view sfs i).din.indirect)
    (hentry : (view sfs' i).entry = (view sfs i).entry) : slot I sfs' = slot I sfs := by
  have hother : ∀ x j, x.owner = some j → j ≠ i → slot I sfs' x = slot I sfs x := by
    intro x j hx hj
    apply slot_congr hpos hx (hinodes j hj)
    intro y hy hne
    refine hdev y ?_ hne
    rw [hy]
    exact fun heq => hj (Option.some.inj heq)
  funext x
  cases x with
  | freemap k =>
      show (if k < sfs_freemap_blocks sfs'.super then 2 + k else 0) = _
      unfold sfs_freemap_blocks
      rw [hblocks]
      rfl
  | inode j => rfl
  | indirect j =>
      by_cases hj : j = i
      · subst hj
        show (if j ∈ I then _ else 0) = if j ∈ I then _ else 0
        rw [hind]
      · exact hother _ j rfl hj
  | data j k =>
      by_cases hj : j = i
      · subst hj
        show (if j ∈ I then _ else 0) = if j ∈ I then _ else 0
        rw [hentry]
      · exact hother _ j rfl hj

/-- The frame, from what has happened to the inodes in memory and to the blocks. -/
theorem Kept.of_dev (hpos : ∀ j ∈ I, j ≠ 0)
    (hsuper : sfs'.super = { sfs.super with unused_blocks := sfs'.super.unused_blocks })
    (hnbits : sfs'.freemap.nbits = sfs.freemap.nbits)
    (hnwords : sfs'.freemap.nwords = sfs.freemap.nwords)
    (hdirty : sfs'.super_dirty = false →
      sfs.super_dirty = false ∧ sfs'.super = sfs.super ∧ sfs'.freemap = sfs.freemap)
    (hlist : sfs'.inode_list = sfs.inode_list)
    (hother : ∀ j, j ≠ i → sfs'.inodes j = sfs.inodes j)
    (hself : ∀ sin, sfs.inodes i = some sin →
      ∃ din dirty, sfs'.inodes i = some { sin with din := din, dirty := dirty })
    (hdev : ∀ x, x.owner ≠ some i → slot I sfs x ≠ 0 →
      sfs'.dev (slot I sfs x) = sfs.dev (slot I sfs x))
    (hnode : sfs'.dev i = sfs.dev i) (hzero : sfs'.dev 0 = sfs.dev 0)
    (hcovered : Covered (slot I sfs) sfs.freemap.isFree sfs.super.blocks →
      Covered (slot I sfs') sfs'.freemap.isFree sfs'.super.blocks) :
    Kept I i sfs sfs' := by
  refine ⟨hsuper, hnbits, hnwords, hdirty, hlist, hother, hself, fun x hx => ?_, hdev, hnode,
    hzero, hcovered⟩
  cases hx' : x.owner with
  | none =>
      cases x with
      | freemap k =>
          show (if k < sfs_freemap_blocks sfs'.super then 2 + k else 0) = _
          rw [hsuper]
          rfl
      | inode j => cases hx'
      | indirect j => cases hx'
      | data j k => cases hx'
  | some j =>
      have hj : j ≠ i := by
        rintro rfl
        exact hx hx'
      apply slot_congr hpos hx' (hother j hj)
      intro y hy hne
      refine hdev y ?_ hne
      rw [hy]
      intro heq
      cases heq
      exact hj rfl

/-- Nothing has been done. -/
theorem Kept.refl (sfs : Sfs) : Kept I i sfs sfs where
  super := rfl
  nbits := rfl
  nwords := rfl
  superDirty := fun h => ⟨h, rfl, rfl⟩
  list := rfl
  other := fun _ _ => rfl
  self := fun sin h => ⟨sin.din, sin.dirty, h⟩
  slots := fun _ _ => rfl
  dev := fun _ _ _ => rfl
  node := rfl
  zero := rfl
  covered := id

/-- One call on a file after another. -/
theorem Kept.trans (h : Kept I i sfs sfs') (h' : Kept I i sfs' sfs'') : Kept I i sfs sfs'' where
  super := by rw [h'.super, h.super]
  nbits := h'.nbits.trans h.nbits
  nwords := h'.nwords.trans h.nwords
  superDirty := by
    intro hd
    obtain ⟨hd', hsuper', hfree'⟩ := h'.superDirty hd
    obtain ⟨hd'', hsuper, hfree⟩ := h.superDirty hd'
    exact ⟨hd'', hsuper'.trans hsuper, hfree'.trans hfree⟩
  list := h'.list.trans h.list
  other := fun j hj => (h'.other j hj).trans (h.other j hj)
  self := by
    intro sin hsin
    obtain ⟨din, dirty, heq⟩ := h.self sin hsin
    obtain ⟨din', dirty', heq'⟩ := h'.self _ heq
    exact ⟨din', dirty', heq'⟩
  slots := fun x hx => (h'.slots x hx).trans (h.slots x hx)
  dev := by
    intro x hx hne
    have hslot := h.slots x hx
    have hdev := h'.dev x hx
    rw [hslot] at hdev
    exact (hdev hne).trans (h.dev x hx hne)
  node := h'.node.trans h.node
  zero := h'.zero.trans h.zero
  covered := fun hc => h'.covered (h.covered hc)

/-- The size of the volume does not change. -/
theorem Kept.blocks (h : Kept I i sfs sfs') : sfs'.super.blocks = sfs.super.blocks := by
  rw [h.super]

/-- The other files are the same. -/
theorem Kept.view_eq (h : Kept I i sfs sfs') (hpos : ∀ j ∈ I, j ≠ 0) (hj : j ∈ I) (hne : j ≠ i) :
    view sfs' j = view sfs j := by
  apply view_congr hj (hpos j hj) (h.other j hne)
  intro x hx hslot
  refine h.dev x ?_ hslot
  rw [hx]
  intro heq
  cases heq
  exact hne rfl

/-- The inode on the disk is as before. -/
theorem Kept.disk (h : Kept I i sfs sfs') : (view sfs' i).disk = (view sfs i).disk := by
  show SfsDiskInode.decode (sfs'.dev i) = SfsDiskInode.decode (sfs.dev i)
  rw [h.node]

end

end Ucore.Proofs.Fs
