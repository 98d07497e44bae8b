import Ucore.Fs.Bitmap
import Ucore.Lib.Bytes
import Ucore.Lib.Routine

/-!
# `Ucore.Fs.Sfs`: a mounted SFS volume

The structures of `sfs.h`, the block I/O of `sfs_io.c` and the allocation of blocks. A block has
4096 bytes (`SFS_BLKSIZE`), an inode 12 direct entries (`SFS_NDIRECT`) and one indirect block of
1024 entries (`SFS_BLK_NENTRY`).

The device is `disk0`. It panics when a transfer fails and so returns no error code. `SfsM` is a
kernel function over the mounted volume. The system calls run one after another: a thread gives the
processor up only when it waits for a semaphore, and none of those of the file system is held over
the end of a system call.

A function that reads or writes a block asserts that it is in range and in use, but for the
superblock. `SfsPanic` has a constructor for each assertion and each call of `panic`, so that a
theorem can say which of them may be met. An error code is an `Errno`.

A block number is a `uint32_t`. The disk has fewer than `2 ^ 20` blocks, as the number of its
sectors bears out, so that `blkno * SFS_BLKSIZE` does not wrap.
-/

set_option autoImplicit false

namespace Ucore.Fs

open Ucore.Lib

/-- The error codes of `error.h` that these functions return. -/
inductive Errno where
  | inval
  | noMem
  | busy
  | noEnt
  | isDir
  | notDir
  | naDev
  | maxOpen
  | exists
  deriving DecidableEq, Repr

/-- The assertions and panics of these functions, by where they stand. -/
inductive SfsPanic where
  /-- `sfs_block_inuse`: the block number is out of range. -/
  | inuseRange
  /-- An assertion of `bitmap.c`. -/
  | bitmap
  /-- `sfs_block_alloc`: `unused_blocks > 0`. -/
  | allocUnused
  /-- `sfs_block_alloc`: the block is in use. -/
  | allocInuse
  /-- `sfs_block_free`: the block is in use. -/
  | freeInuse
  /-- `sfs_rwblock_nolock`: the block number is out of range. -/
  | rwblock
  /-- `sfs_rbuf` and `sfs_wbuf`: the range in the block. -/
  | bufRange
  /-- `sfs_get_ops`: invalid file type. -/
  | fileType
  /-- `sfs_load_inode`: the block of the inode is in use. -/
  | loadInuse
  /-- `sfs_load_inode`: `nlinks != 0`. -/
  | loadLinks
  /-- `sfs_bmap_get_sub_nolock`, `sfs_bmap_free_sub_nolock`: the index in the block. -/
  | entIndex
  /-- `sfs_bmap_get_nolock`: index out of range. -/
  | bmapRange
  /-- `sfs_bmap_get_nolock`: `indirect == 0`. -/
  | bmapIndirect
  /-- `sfs_bmap_get_nolock`: the block is in use. -/
  | bmapInuse
  /-- `sfs_bmap_free_sub_nolock`: the indirect block is in use. -/
  | freeSubInuse
  /-- `sfs_bmap_load_nolock`: `index <= blocks`. -/
  | loadIndex
  /-- `sfs_bmap_load_nolock`: the block is in use. -/
  | loadBlockInuse
  /-- `sfs_bmap_truncate_nolock`: `blocks != 0`. -/
  | truncEmpty
  /-- `sfs_truncfile`: `tblks == blocks` when the length stays. -/
  | truncBlocks
  /-- `sfs_truncfile`: `blocks == tblks` in the end. -/
  | truncResult
  /-- `sfs_dirent_read_nolock`: a directory, and a slot of it. -/
  | direntSlot
  /-- `sfs_dirent_read_nolock`: the block is in use. -/
  | direntInuse
  /-- `sfs_dirent_search_nolock`: the length of the name. -/
  | nameLength
  /-- `sfs_lookup`: the path. -/
  | lookupPath
  /-- `sfs_io_nolock`: not a directory. -/
  | ioDir
  /-- `iobuf_skip`: the length. -/
  | iobufSkip
  /-- `sfs_reclaim`: `reclaim_count > 0`. -/
  | reclaimCount
  /-- `sfs_get_root`: the root cannot be loaded. -/
  | getRoot
  /-- A `vop_` call without a function behind it. -/
  | noVop
  /-- `inode_check` -/
  | inodeCheck
  /-- `inode_ref_dec`: `ref_count > 0`. -/
  | refCount
  /-- `inode_open_dec`: `open_count > 0`. -/
  | openCount
  /-- `inode_kill`: the counts are zero. -/
  | inodeKill
  /-- `sfs_do_mount`: the number of free blocks. -/
  | mountUnused
  /-- An inode that is not in memory. The code has no such pointer. -/
  | dangling
  deriving DecidableEq, Repr

/-! ### On the disk -/

/-- A `struct sfs_super`. -/
structure SfsSuper where
  magic : Nat
  blocks : Nat
  unused_blocks : Nat
  info : List UInt8

/-- A `struct sfs_disk_inode`. -/
@[ext] structure SfsDiskInode where
  size : Nat
  type : Nat
  nlinks : Nat
  blocks : Nat
  direct : Fin 12 → Nat
  indirect : Nat

/-- `SFS_MAGIC` -/
def SFS_MAGIC : Nat := 0x2f8dbe2a

/-- `SFS_TYPE_FILE` -/
def SFS_TYPE_FILE : Nat := 1

/-- `SFS_TYPE_DIR` -/
def SFS_TYPE_DIR : Nat := 2

/-- `SFS_MAX_FILE_SIZE` -/
def SFS_MAX_FILE_SIZE : Nat := 1024 * 1024 * 128

/-- `SFS_BLKN_ROOT` -/
def SFS_BLKN_ROOT : Nat := 1

/-- The bytes of a `struct sfs_super`. -/
def SfsSuper.encode (super : SfsSuper) : List UInt8 :=
  toLe 4 super.magic ++ toLe 4 super.blocks ++ toLe 4 super.unused_blocks ++ super.info

/-- The `struct sfs_super` at the beginning of a block. -/
def SfsSuper.decode (block : Bytes) : SfsSuper where
  magic := block.load 0 4
  blocks := block.load 4 4
  unused_blocks := block.load 8 4
  info := block.slice 12 32

/-- The bytes of a `struct sfs_disk_inode`. -/
def SfsDiskInode.encode (din : SfsDiskInode) : List UInt8 :=
  toLe 4 din.size ++ toLe 2 din.type ++ toLe 2 din.nlinks ++ toLe 4 din.blocks ++
    (List.ofFn fun k => toLe 4 (din.direct k)).flatten ++ toLe 4 din.indirect

/-- The `struct sfs_disk_inode` at the beginning of a block. -/
def SfsDiskInode.decode (block : Bytes) : SfsDiskInode where
  size := block.load 0 4
  type := block.load 4 2
  nlinks := block.load 6 2
  blocks := block.load 8 4
  direct := fun k => block.load (12 + 4 * k.val) 4
  indirect := block.load 60 4

/-! ### In memory -/

/-- A `struct sfs_inode` and the counts of the `struct inode` it is in. -/
structure SfsInode where
  din : SfsDiskInode
  dirty : Bool
  reclaim_count : Nat
  ref_count : Nat
  open_count : Nat

/-- A `struct sfs_fs` and its device. `inodes` is the hash list, by inode number, and
`inode_list` the list of the inodes in memory. -/
structure Sfs where
  super : SfsSuper
  freemap : Bitmap
  super_dirty : Bool
  inode_list : List Nat
  inodes : Nat → Option SfsInode
  dev : Nat → Bytes

/-- A kernel function over the volume. -/
abbrev SfsM := Routine Sfs Errno SfsPanic

/-- The `struct sfs_inode` behind a pointer. -/
def sfsInode (ino : Nat) : SfsM SfsInode := fun sfs =>
  match sfs.inodes ino with
  | some sin => .ok (.ok sin, sfs)
  | none => .error .dangling

/-- Change the `struct sfs_inode` behind a pointer. -/
def setSfsInode (ino : Nat) (f : SfsInode → SfsInode) : SfsM Unit :=
  Routine.modify fun sfs =>
    { sfs with inodes := Function.update sfs.inodes ino ((sfs.inodes ino).map f) }

/-! ### Block I/O -/

/-- The assertion of `sfs_rwblock_nolock`. -/
def sfs_rwblock_check (blkno : Nat) (check : Bool) : SfsM Unit :=
  Routine.assert .rwblock fun sfs => (blkno ≠ 0 ∨ check = false) ∧ blkno < sfs.super.blocks

/-- `sfs_rwblock_nolock`, read. -/
def sfs_rblock_nolock (blkno : Nat) (check : Bool) : SfsM Bytes := do
  sfs_rwblock_check blkno check
  Routine.read fun sfs => sfs.dev blkno

/-- `sfs_rwblock_nolock`, write. -/
def sfs_wblock_nolock (buf : Bytes) (blkno : Nat) (check : Bool) : SfsM Unit := do
  sfs_rwblock_check blkno check
  Routine.modify fun sfs => { sfs with dev := Function.update sfs.dev blkno buf }

/-- `sfs_rblock` of one block. -/
def sfs_rblock (blkno : Nat) : SfsM (List UInt8) := do
  let block ← sfs_rblock_nolock blkno true
  return block.slice 0 4096

/-- The bytes of a buffer, at the address of the block it is copied to. -/
def bufferBlock (buf : List UInt8) : Bytes := fun k => buf.getD k 0

/-- `sfs_wblock` of one block. -/
def sfs_wblock (buf : List UInt8) (blkno : Nat) : SfsM Unit :=
  sfs_wblock_nolock (bufferBlock buf) blkno true

/-- `sfs_wblock` of several blocks. -/
def sfs_wblocks (data : Bytes) (blkno : Nat) : Nat → SfsM Unit
  | 0 => pure ()
  | nblks + 1 => do
      sfs_wblock_nolock data blkno true
      sfs_wblocks (fun k => data (4096 + k)) (blkno + 1) nblks

/-- `sfs_rbuf` -/
def sfs_rbuf (len blkno offset : Nat) : SfsM (List UInt8) := do
  Routine.assert .bufRange fun _ => offset < 4096 ∧ offset + len ≤ 4096
  let sfs_buffer ← sfs_rblock_nolock blkno true
  return sfs_buffer.slice offset len

/-- `sfs_wbuf` -/
def sfs_wbuf (buf : List UInt8) (blkno offset : Nat) : SfsM Unit := do
  Routine.assert .bufRange fun _ => offset < 4096 ∧ offset + buf.length ≤ 4096
  let sfs_buffer ← sfs_rblock_nolock blkno true
  sfs_wblock_nolock (sfs_buffer.overlay offset buf) blkno true

/-- `sfs_clear_block` of one block. -/
def sfs_clear_block (blkno : Nat) : SfsM Unit :=
  sfs_wblock_nolock (fun _ => 0) blkno true

/-- `sfs_freemap_blocks` -/
def sfs_freemap_blocks (super : SfsSuper) : Nat := (super.blocks + 32767) / 32768

/-- `sfs_freemap_bits` -/
def sfs_freemap_bits (super : SfsSuper) : Nat := sfs_freemap_blocks super * 32768

/-- `sfs_sync_super` -/
def sfs_sync_super : SfsM Unit := do
  let super ← Routine.read fun sfs => sfs.super
  -- block 0, which only this call may write
  sfs_wblock_nolock (bufferBlock super.encode) 0 false

/-- `bitmap_getdata`: the bytes of the words. -/
def bitmap_getdata (bitmap : Bitmap) : Bytes := fun k =>
  (toLe 4 (bitmap.map (k / 4)).toNat).getD (k % 4) 0

/-- `sfs_sync_freemap` -/
def sfs_sync_freemap : SfsM Unit := do
  let sfs ← Routine.read id
  sfs_wblocks (bitmap_getdata sfs.freemap) 2 (sfs_freemap_blocks sfs.super)

/-! ### Allocation -/

/-- Run a function of `bitmap.c`. -/
def onBitmap {α : Type} (f : Bitmap → Except Unit α) : SfsM α := fun sfs =>
  match f sfs.freemap with
  | .ok a => .ok (.ok a, sfs)
  | .error () => .error .bitmap

/-- `sfs_block_inuse` -/
def sfs_block_inuse (ino : Nat) : SfsM Bool := do
  Routine.assert .inuseRange fun sfs => ino ≠ 0 ∧ ino < sfs.super.blocks
  let free ← onBitmap fun freemap => bitmap_test freemap ino
  return !free

/-- `assert` of a condition that has been computed. -/
def check (h : SfsPanic) (b : Bool) : SfsM Unit := Routine.assert h fun _ => b = true

/-- `sfs_block_alloc` -/
def sfs_block_alloc : SfsM Nat := do
  match ← onBitmap bitmap_alloc with
  | none => Routine.fail .noMem
  | some (ino, freemap) =>
      -- the bit is taken before the assertion about the count
      Routine.modify fun sfs => { sfs with freemap := freemap }
      Routine.assert .allocUnused fun sfs => 0 < sfs.super.unused_blocks
      Routine.modify fun sfs =>
        { sfs with
          super := { sfs.super with unused_blocks := sfs.super.unused_blocks - 1 }
          super_dirty := true }
      check .allocInuse (← sfs_block_inuse ino)
      sfs_clear_block ino
      return ino

/-- `sfs_block_free` -/
def sfs_block_free (ino : Nat) : SfsM Unit := do
  check .freeInuse (← sfs_block_inuse ino)
  let freemap ← onBitmap fun freemap => bitmap_free freemap ino
  Routine.modify fun sfs =>
    { sfs with
      freemap := freemap
      super := { sfs.super with unused_blocks := sfs.super.unused_blocks + 1 }
      super_dirty := true }

end Ucore.Fs
