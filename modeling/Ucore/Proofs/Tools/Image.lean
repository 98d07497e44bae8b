import Mathlib
import Ucore.Proofs.Fs.Io
import Ucore.Tools.Mksfs

/-!
# `Ucore.Proofs.Tools.Image`: the image as a volume

At every moment `mksfs` holds a volume that the kernel could have mounted: the inodes are in memory
and marked, the indirect blocks are those of the cache, and the free blocks are those that the tool
has not handed out (`vol`). Appending a block to a file is then the mapping of an index and a write
to it, in the terms of the kernel's own block map (`Put`).

So the lemmas about the block map that the kernel's functions use are the ones used here. `Sizes`
has the numbers: the blocks handed out so far, and those of the image. `Sizes.took` says that taking
the next block is an allocation of the kernel (`Took`), and `Sizes.put_direct`, `Sizes.put_indirect`
and `Sizes.put_first` are the three ways to give it a place.

The tool has a doubly indirect block, which the kernel does not know. The modules behind this one
stay below its first index.
-/

set_option autoImplicit false

namespace Ucore.Proofs.Tools

open Ucore.Lib Ucore.Fs Ucore.Tools Ucore.Proofs.Fs

/-! ### The volume -/

/-- The free map with given free blocks. -/
def bitmapOf (free : Nat → Bool) (nbits : Nat) : Bitmap where
  nbits := nbits
  nwords := nbits / 32
  map := fun ix => BitVec.ofFnLE fun o : Fin 32 => free (32 * ix + o)

/-- The bitmap of a set of free blocks. -/
theorem isFree_bitmapOf (free : Nat → Bool) (nbits : Nat) :
    (bitmapOf free nbits).isFree = free := by
  funext b
  unfold Bitmap.isFree bitmapOf
  rw [BitVec.getLsbD_ofFnLE, dif_pos (Nat.mod_lt _ (by decide)), Nat.div_add_mod]

/-- The inode as the kernel has it, which knows no doubly indirect block. -/
def MkInode.din (inode : MkInode) : SfsDiskInode where
  size := inode.size
  type := inode.type
  nlinks := inode.nlinks
  blocks := inode.blocks
  direct := inode.direct
  indirect := inode.indirect

/-- A `struct cache_inode` as an inode in memory. -/
def asInode (ci : CacheInode) : SfsInode where
  din := MkInode.din ci.inode
  dirty := true
  reclaim_count := 1
  ref_count := 1
  open_count := 0

/-- The blocks that have not been handed out. -/
def freeFrom (st : MkSfs) : Nat → Bool := fun b => decide (st.next_ino ≤ b ∧ b < st.ninos)

/-- The volume in the hands of the tool. -/
def vol (st : MkSfs) : Sfs where
  super := { st.super with info := st.super.info.set 31 0 }
  freemap := bitmapOf (freeFrom st) (sfs_freemap_bits st.super)
  super_dirty := true
  inode_list := []
  inodes := fun i => (st.cacheInodes i).map asInode
  dev := fun b => (st.cacheBlocks b).getD (st.img b)

/-! ### Changes of the state -/

section
variable (st : MkSfs) (i b : Nat)

/-- The state behind `sfs_alloc_ino`. -/
def withAlloc : MkSfs :=
  { st with
    super := { st.super with unused_blocks := st.super.unused_blocks - 1 }
    next_ino := st.next_ino + 1 }

/-- The state with another block of the image. -/
def withImg (blk : Bytes) : MkSfs := { st with img := Function.update st.img b blk }

/-- The state with another inode in memory. -/
def withCi (ci : CacheInode) : MkSfs :=
  { st with cacheInodes := Function.update st.cacheInodes i (some ci) }

/-- The state with another block in memory. -/
def withCb (cache : Bytes) : MkSfs :=
  { st with cacheBlocks := Function.update st.cacheBlocks b (some cache) }

/-- The state with a block at the head of the list of `alloc_cache_block`. -/
def withHead : MkSfs :=
  { st with blocks := Function.update st.blocks (hash32 0) (b :: st.blocks (hash32 0)) }

/-- A block of the image that is not in memory is a block of the volume. -/
theorem vol_withImg {blk : Bytes} (h : st.cacheBlocks b = none) :
    vol (withImg st b blk) = { vol st with dev := Function.update (vol st).dev b blk } := by
  have hdev : (vol (withImg st b blk)).dev = Function.update (vol st).dev b blk := by
    funext c
    show (st.cacheBlocks c).getD (Function.update st.img b blk c) = _
    by_cases hc : c = b
    · rw [hc, h, Function.update_self, Function.update_self]
      rfl
    · rw [Function.update_of_ne hc, Function.update_of_ne hc]
      rfl
  rw [← hdev]
  rfl

/-- An inode in memory is one of the volume. -/
theorem vol_withCi (ci : CacheInode) :
    vol (withCi st i ci) =
      { vol st with inodes := Function.update (vol st).inodes i (some (asInode ci)) } := by
  have hinodes : (vol (withCi st i ci)).inodes =
      Function.update (vol st).inodes i (some (asInode ci)) := by
    funext j
    show (Function.update st.cacheInodes i (some ci) j).map asInode = _
    by_cases hj : j = i
    · rw [hj, Function.update_self, Function.update_self]
      rfl
    · rw [Function.update_of_ne hj, Function.update_of_ne hj]
      rfl
  rw [← hinodes]
  rfl

/-- A block in memory is a block of the volume. -/
theorem vol_withCb (cache : Bytes) :
    vol (withCb st b cache) = { vol st with dev := Function.update (vol st).dev b cache } := by
  have hdev : (vol (withCb st b cache)).dev = Function.update (vol st).dev b cache := by
    funext c
    show (Function.update st.cacheBlocks b (some cache) c).getD (st.img c) = _
    by_cases hc : c = b
    · rw [hc, Function.update_self, Function.update_self]
      rfl
    · rw [Function.update_of_ne hc, Function.update_of_ne hc]
      rfl
  rw [← hdev]
  rfl

end

/-! ### Handing out blocks -/

/-- The counts of the blocks of the image. -/
structure Sizes (st : MkSfs) : Prop where
  first : 3 ≤ st.next_ino
  last : st.next_ino ≤ st.ninos
  blocks : st.super.blocks = st.ninos
  unused : st.super.unused_blocks = st.ninos - st.next_ino

variable {st : MkSfs} {I : Finset Nat} {i k n b : Nat}

/-- The new block is in use. -/
theorem freeFrom_withAlloc (st : MkSfs) :
    freeFrom (withAlloc st) = Function.update (freeFrom st) st.next_ino false := by
  funext c
  show decide (st.next_ino + 1 ≤ c ∧ c < st.ninos) = _
  by_cases hc : c = st.next_ino
  · rw [hc, Function.update_self]
    simp
  · rw [Function.update_of_ne hc]
    show _ = decide (st.next_ino ≤ c ∧ c < st.ninos)
    simp only [decide_eq_decide]
    omega

/-- The sizes are right behind an allocation. -/
theorem Sizes.alloc (h : Sizes st) (hlt : st.next_ino < st.ninos) : Sizes (withAlloc st) where
  first := Nat.le_succ_of_le h.first
  last := hlt
  blocks := h.blocks
  unused := by
    show st.super.unused_blocks - 1 = st.ninos - (st.next_ino + 1)
    rw [h.unused]
    omega

/-- The sizes depend on the superblock and the next block. -/
theorem Sizes.congr {st' : MkSfs} (h : Sizes st) (hsuper : st'.super = st.super)
    (hninos : st'.ninos = st.ninos) (hnext : st'.next_ino = st.next_ino) : Sizes st' := by
  refine ⟨?_, ?_, ?_, ?_⟩
  · rw [hnext]
    exact h.first
  · rw [hnext, hninos]
    exact h.last
  · rw [hsuper, hninos]
    exact h.blocks
  · rw [hsuper, hninos, hnext]
    exact h.unused

/-- The next block is never the superblock. -/
theorem Sizes.ne_zero (h : Sizes st) : st.next_ino ≠ 0 := by
  have hfirst := h.first
  omega

/-- The next block is taken. It does not matter what the blocks hold. -/
theorem Sizes.took (h : Sizes st) (hlt : st.next_ino < st.ninos) (dev : Nat → Bytes) :
    Took { vol st with dev := dev } st.next_ino
      { vol (withAlloc st) with dev := Function.update dev st.next_ino fun _ => 0 } where
  free := by
    show (bitmapOf (freeFrom st) _).isFree _ = true
    rw [isFree_bitmapOf]
    exact decide_eq_true ⟨le_refl _, hlt⟩
  ne_zero := h.ne_zero
  lt := lt_of_lt_of_eq hlt h.blocks.symm
  unused := by
    show 0 < st.super.unused_blocks
    rw [h.unused]
    omega
  isFree := by
    show (bitmapOf _ _).isFree = Function.update (bitmapOf (freeFrom st) _).isFree _ _
    rw [isFree_bitmapOf, isFree_bitmapOf]
    exact freeFrom_withAlloc st
  nbits := rfl
  nwords := rfl
  super := rfl
  superDirty := rfl
  list := rfl
  inodes := rfl
  dev := rfl

/-- The volume with the block behind the next one taken. -/
def skipAlloc (st : MkSfs) : Sfs :=
  { vol st with
    super := { (vol st).super with unused_blocks := st.super.unused_blocks - 1 }
    freemap := bitmapOf (Function.update (freeFrom st) (st.next_ino + 1) false)
      (sfs_freemap_bits st.super)
    dev := Function.update (vol st).dev (st.next_ino + 1) fun _ => 0 }

/-- Two blocks are taken, the second one first. -/
theorem Sizes.took_two (h : Sizes st) (hlt : st.next_ino + 1 < st.ninos) :
    Took (vol st) (st.next_ino + 1) (skipAlloc st) ∧
      Took (skipAlloc st) st.next_ino
        { vol (withAlloc (withAlloc st)) with
          dev := Function.update (skipAlloc st).dev st.next_ino fun _ => 0 } := by
  have hunused : 2 ≤ st.super.unused_blocks := by
    rw [h.unused]
    omega
  refine ⟨⟨?_, by omega, lt_of_lt_of_eq hlt h.blocks.symm, by
      show 0 < st.super.unused_blocks
      omega, ?_, rfl, rfl, rfl, rfl, rfl, rfl, rfl⟩,
    ⟨?_, h.ne_zero, ?_, by
      show 0 < st.super.unused_blocks - 1
      omega, ?_, rfl, rfl, rfl, rfl, rfl, rfl, rfl⟩⟩
  · show (bitmapOf (freeFrom st) _).isFree _ = true
    rw [isFree_bitmapOf]
    exact decide_eq_true ⟨Nat.le_succ _, hlt⟩
  · show (bitmapOf _ _).isFree = Function.update (bitmapOf (freeFrom st) _).isFree _ _
    rw [isFree_bitmapOf, isFree_bitmapOf]
  · show (bitmapOf _ _).isFree _ = true
    rw [isFree_bitmapOf, Function.update_of_ne (by omega)]
    exact decide_eq_true ⟨le_refl _, by omega⟩
  · show st.next_ino < st.super.blocks
    rw [h.blocks]
    omega
  · show (bitmapOf _ _).isFree = Function.update (bitmapOf _ _).isFree _ _
    rw [isFree_bitmapOf, isFree_bitmapOf, freeFrom_withAlloc, freeFrom_withAlloc]
    exact Function.update_comm (show st.next_ino ≠ st.next_ino + 1 by omega) ..

/-! ### Appending a block -/

/-- An index of a file has been mapped to the block `b`, with the bytes `blk`, and the inode has
become `din`. -/
structure Put (I : Finset Nat) (i k b : Nat) (blk : Bytes) (din : SfsDiskInode) (sfs sfs' : Sfs) :
    Prop where
  core : Core I sfs'
  kept : Kept I i sfs sfs'
  ne_zero : b ≠ 0
  entry : (view sfs' i).entry = Function.update (view sfs i).entry k b
  content : (view sfs' i).content = fun pos =>
    if pos / 4096 = k then blk (pos % 4096) else (view sfs i).content pos
  din : (view sfs' i).din = din

/-- What is mapped can be written to. -/
theorem Put.of_mapping {sfs sfs₂ : Sfs} (sin : SfsInode) (din : SfsDiskInode)
    (h : Mapping I i k sfs b sfs₂) (hi : i ∈ I) (hsin : sfs₂.inodes i = some sin)
    (hdirect : din.direct = sin.din.direct) (hind : din.indirect = sin.din.indirect)
    (blk : Bytes) :
    Put I i k b blk din sfs
      (withDin { sfs₂ with dev := Function.update sfs₂.dev b blk } i sin din true) := by
  have hentry : (view sfs₂ i).entry k = b := by
    rw [h.entry, Function.update_self]
  obtain ⟨hcore, hkept, hview⟩ := put_block blk h.core hi h.ne_zero hentry
  have hview' : view (withDin { sfs₂ with dev := Function.update sfs₂.dev b blk } i sin din true) i =
      _ := view_withDin din true hsin hdirect hind
  refine ⟨hcore.withDin hsin hdirect hind,
    (h.kept.trans hkept).trans (Kept.withDin hcore hsin hdirect hind), h.ne_zero, ?_, ?_, ?_⟩
  · rw [hview', hview]
    exact h.entry
  · rw [hview', hview, h.content]
  · rw [hview']

/-- The inode with one more block. -/
def grownInode (inode : MkInode) (size : Nat) : MkInode :=
  { inode with size := inode.size + size, blocks := inode.blocks + 1 }

/-- A direct entry gets the next block. -/
theorem Sizes.put_direct (h : Sizes st) (hlt : st.next_ino < st.ninos) (hcore : Core I (vol st))
    (hi : i ∈ I) {ci : CacheInode} (hci : st.cacheInodes i = some ci) (hk : k < 12)
    (hzero : ci.inode.direct ⟨k, hk⟩ = 0) (hfree : st.cacheBlocks st.next_ino = none)
    (blk : Bytes) (ci' : CacheInode) (size : Nat)
    (hci' : ci'.inode = grownInode { ci.inode with
      direct := Function.update ci.inode.direct ⟨k, hk⟩ st.next_ino } size) :
    Put I i k st.next_ino blk (MkInode.din ci'.inode) (vol st)
      (vol (withCi (withImg (withAlloc st) st.next_ino blk) i ci')) := by
  have hsin : (vol st).inodes i = some (asInode ci) := by
    show (st.cacheInodes i).map asInode = _
    rw [hci]
    rfl
  have hmap := (h.took hlt (vol st).dev).mapping_direct hcore hi hsin hk hzero
  have hput := Put.of_mapping { asInode ci with
      din := { MkInode.din ci.inode with
        direct := Function.update ci.inode.direct ⟨k, hk⟩ st.next_ino } }
    (MkInode.din ci'.inode) hmap hi (Function.update_self ..)
    (by rw [hci']; rfl) (by rw [hci']; rfl) blk
  have hsame : vol (withCi (withImg (withAlloc st) st.next_ino blk) i ci') = _ :=
    (vol_withCi ..).trans (by rw [vol_withImg (withAlloc st) st.next_ino hfree])
  rw [hsame]
  unfold withDin at hput
  rw [Function.update_idem, Function.update_idem] at hput
  exact hput

/-- An entry of the indirect block gets the next block. -/
theorem Sizes.put_indirect (h : Sizes st) (hlt : st.next_ino < st.ninos) (hcore : Core I (vol st))
    (hi : i ∈ I) {ci : CacheInode} (hci : st.cacheInodes i = some ci) (hk : 12 ≤ k)
    (hk' : k < 1036) (hne : ci.inode.indirect ≠ 0)
    (hzero : (view (vol st) i).entry k = 0) (hfree : st.cacheBlocks st.next_ino = none)
    {cache : Bytes} (hcache : st.cacheBlocks ci.inode.indirect = some cache)
    (blk : Bytes) (ci' : CacheInode) (size : Nat) (hci' : ci'.inode = grownInode ci.inode size) :
    Put I i k st.next_ino blk (MkInode.din ci'.inode) (vol st)
      (vol (withCi (withCb (withImg (withAlloc st) st.next_ino blk) ci.inode.indirect
        (cache.store ((k - 12) * 4) 4 st.next_ino)) i ci')) := by
  have hsin : (vol st).inodes i = some (asInode ci) := by
    show (st.cacheInodes i).map asInode = _
    rw [hci]
    rfl
  have hdev : (vol st).dev ci.inode.indirect = cache := by
    show (st.cacheBlocks ci.inode.indirect).getD _ = _
    rw [hcache]
    rfl
  have hindb : ci.inode.indirect ≠ st.next_ino := by
    rintro heq
    rw [heq, hfree] at hcache
    cases hcache
  rw [view_eq hsin] at hzero
  have hmap := (h.took hlt (vol st).dev).mapping_indirect hcore hi hsin hk hk' hne hzero
  have hput := Put.of_mapping (asInode ci) (MkInode.din ci'.inode) hmap hi hsin
    (by rw [hci']; rfl) (by rw [hci']; rfl) blk
  -- the two blocks are written in the other order
  have hdevs : Function.update (Function.update (vol st).dev st.next_ino blk) ci.inode.indirect
      (cache.store ((k - 12) * 4) 4 st.next_ino) =
      Function.update (Function.update (Function.update (vol st).dev st.next_ino fun _ => 0)
        ci.inode.indirect
          ((Function.update (vol st).dev st.next_ino (fun _ => 0) ci.inode.indirect).overlay
            ((k - 12) * 4) (toLe 4 st.next_ino))) st.next_ino blk := by
    rw [Function.update_of_ne hindb, hdev, Function.update_comm hindb, Function.update_idem]
    rfl
  have hsame : vol (withCi (withCb (withImg (withAlloc st) st.next_ino blk) ci.inode.indirect
      (cache.store ((k - 12) * 4) 4 st.next_ino)) i ci') = _ :=
    (vol_withCi ..).trans (by
      rw [vol_withCb, vol_withImg (withAlloc st) st.next_ino hfree])
  rw [hsame]
  show Put I i k st.next_ino blk _ (vol st) { vol (withAlloc st) with
    dev := Function.update (Function.update (vol st).dev st.next_ino blk) ci.inode.indirect
      (cache.store ((k - 12) * 4) 4 st.next_ino)
    inodes := Function.update (vol st).inodes i (some (asInode ci')) }
  rw [hdevs]
  exact hput

/-- The indirect block and its first entry get the next two blocks. -/
theorem Sizes.put_first (h : Sizes st) (hlt : st.next_ino + 1 < st.ninos)
    (hcore : Core I (vol st)) (hi : i ∈ I) {ci : CacheInode} (hci : st.cacheInodes i = some ci)
    (hk : 12 ≤ k) (hk' : k < 1036) (hnone : ci.inode.indirect = 0)
    (hfree : st.cacheBlocks st.next_ino = none) (blk : Bytes) (ci' : CacheInode) (size : Nat)
    (hci' : ci'.inode = grownInode { ci.inode with indirect := st.next_ino + 1 } size) :
    Put I i k st.next_ino blk (MkInode.din ci'.inode) (vol st)
      (vol (withCi (withCb (withAlloc (withImg (withAlloc st) st.next_ino blk)) (st.next_ino + 1)
        (Bytes.store (fun _ => 0) ((k - 12) * 4) 4 st.next_ino)) i ci')) := by
  have hsin : (vol st).inodes i = some (asInode ci) := by
    show (st.cacheInodes i).map asInode = _
    rw [hci]
    rfl
  obtain ⟨htook, htook'⟩ := h.took_two hlt
  have hmap := htook.mapping_first hcore hi hsin hk hk' hnone htook'
  have hput := Put.of_mapping { asInode ci with
      din := { MkInode.din ci.inode with indirect := st.next_ino + 1 } }
    (MkInode.din ci'.inode) hmap hi (Function.update_self ..)
    (by rw [hci']; rfl) (by rw [hci']; rfl) blk
  have hne : st.next_ino + 1 ≠ st.next_ino := by omega
  -- The tool writes each block once. The kernel clears a block before it writes to it, which leaves
  -- the same bytes behind.
  have hdevs : Function.update (Function.update (vol st).dev st.next_ino blk) (st.next_ino + 1)
      (Bytes.store (fun _ => 0) ((k - 12) * 4) 4 st.next_ino) =
      Function.update (Function.update
        (Function.update (skipAlloc st).dev st.next_ino fun _ => 0) (st.next_ino + 1)
          ((Function.update (skipAlloc st).dev st.next_ino (fun _ => 0) (st.next_ino + 1)).overlay
            ((k - 12) * 4) (toLe 4 st.next_ino))) st.next_ino blk := by
    have hclear : (skipAlloc st).dev = Function.update (vol st).dev (st.next_ino + 1) fun _ => 0 :=
      rfl
    funext c
    by_cases hc : c = st.next_ino
    · rw [hc, Function.update_self, Function.update_of_ne (Ne.symm hne), Function.update_self]
    · by_cases hc' : c = st.next_ino + 1
      · rw [hc', Function.update_self, Function.update_of_ne hne, Function.update_self,
          Function.update_of_ne hne, hclear, Function.update_self]
        rfl
      · rw [Function.update_of_ne hc', Function.update_of_ne hc, Function.update_of_ne hc,
          Function.update_of_ne hc', Function.update_of_ne hc, hclear, Function.update_of_ne hc']
  have hsame : vol (withCi (withCb (withAlloc (withImg (withAlloc st) st.next_ino blk))
      (st.next_ino + 1) (Bytes.store (fun _ => 0) ((k - 12) * 4) 4 st.next_ino)) i ci') = _ :=
    (vol_withCi ..).trans (by
      rw [vol_withCb, show withAlloc (withImg (withAlloc st) st.next_ino blk) =
        withImg (withAlloc (withAlloc st)) st.next_ino blk from rfl,
        vol_withImg (withAlloc (withAlloc st)) st.next_ino hfree])
  rw [hsame]
  show Put I i k st.next_ino blk _ (vol st) { vol (withAlloc (withAlloc st)) with
    dev := Function.update (Function.update (vol st).dev st.next_ino blk) (st.next_ino + 1)
      (Bytes.store (fun _ => 0) ((k - 12) * 4) 4 st.next_ino)
    inodes := Function.update (vol st).inodes i (some (asInode ci')) }
  rw [hdevs]
  unfold withDin at hput
  rw [Function.update_idem] at hput
  exact hput

end Ucore.Proofs.Tools
