import Ucore.Fs.Sfs

/-!
# `Ucore.Fs.SfsInode`: the inodes of `sfs_inode.c`

The block map of an inode, the entries of a directory, reading and writing, truncation, and loading
and reclaiming an inode. An inode is named by its number, which stands for the pointers to it. The
locks are left out: a call holds none of them on return.

The functions keep the names of the source and are in its order. A `goto` with an undo behind it is
a handler (`Routine.handle`), for example the one in `sfs_bmap_get_sub_nolock` that frees a block
when the write behind its allocation fails. A function with an out-parameter returns its value, and
`sfs_io_nolock` returns how much it has moved also when it fails.

Arithmetic on offsets is that of `off_t`, and a block of an index is `uint32_t`. The number of
blocks of the disk is below `2 ^ 20`, so that a product with `SFS_BLKSIZE` does not wrap.
-/

set_option autoImplicit false

namespace Ucore.Fs

open Ucore.Lib

/-- Change the disk inode in memory. -/
def setDin (ino : Nat) (f : SfsDiskInode → SfsDiskInode) (dirty : Bool) : SfsM Unit :=
  setSfsInode ino fun sin => { sin with din := f sin.din, dirty := sin.dirty || dirty }

/-! ### The block map -/

/-- `failed_cleanup` of `sfs_bmap_get_sub_nolock` -/
def sfs_bmap_get_sub_cleanup {α : Type} (entp ent : Nat) (ret : Errno) : SfsM α :=
  if ent ≠ entp then do
    sfs_block_free ent
    Routine.fail ret
  else Routine.fail ret

/-- `sfs_bmap_get_sub_nolock` from the allocation of the block on. The result is the block
and what `*entp` is set to. -/
def sfs_bmap_get_sub_alloc (entp ent index : Nat) : SfsM (Nat × Nat) := do
  let ino ← sfs_block_alloc.handle (sfs_bmap_get_sub_cleanup entp ent)
  (sfs_wbuf (toLe 4 ino) ent (index * 4)).handle fun ret => do
    sfs_block_free ino
    sfs_bmap_get_sub_cleanup entp ent ret
  return (ino, ent)

/-- `sfs_bmap_get_sub_nolock`. The result is the block and what `*entp` is set to. -/
def sfs_bmap_get_sub_nolock (entp index : Nat) (create : Bool) : SfsM (Nat × Nat) := do
  Routine.assert .entIndex fun _ => index < 1024
  if entp ≠ 0 then
    -- there is an indirect block: read the entry, and make one if it is 0
    let ino ← sfs_rbuf 4 entp (index * 4)
    if ofLe ino ≠ 0 ∨ create = false then
      return (ofLe ino, entp)
    else
      sfs_bmap_get_sub_alloc entp entp index
  -- no indirect block yet
  else if create = false then
    return (0, entp)
  else
    let ent ← sfs_block_alloc
    sfs_bmap_get_sub_alloc entp ent index

/-- `sfs_bmap_get_nolock` for an index below `SFS_NDIRECT` -/
def sfs_bmap_get_direct (ino : Nat) (index : Fin 12) (create : Bool) : SfsM Nat := do
  let sin ← sfsInode ino
  if sin.din.direct index = 0 ∧ create = true then
    let block ← sfs_block_alloc
    setDin ino (fun din => { din with direct := Function.update din.direct index block }) true
    return block
  else
    return sin.din.direct index

/-- `sfs_bmap_get_nolock` for an index of the indirect block -/
def sfs_bmap_get_indirect (ino index : Nat) (create : Bool) : SfsM Nat := do
  let sin ← sfsInode ino
  let r ← sfs_bmap_get_sub_nolock sin.din.indirect index create
  Routine.when (r.2 ≠ sin.din.indirect) do
    check .bmapIndirect (sin.din.indirect = 0)
    setDin ino (fun din => { din with indirect := r.2 }) true
  return r.1

/-- `sfs_bmap_get_nolock` up to `out` -/
def sfs_bmap_get_block (ino index : Nat) (create : Bool) : SfsM Nat :=
  if h : index < 12 then sfs_bmap_get_direct ino ⟨index, h⟩ create
  else if index - 12 < 1024 then sfs_bmap_get_indirect ino (index - 12) create
  else Routine.panic .bmapRange

/-- `sfs_bmap_get_nolock` -/
def sfs_bmap_get_nolock (ino index : Nat) (create : Bool) : SfsM Nat := do
  let block ← sfs_bmap_get_block ino index create
  Routine.when (block ≠ 0) do
    check .bmapInuse (← sfs_block_inuse block)
  return block

/-- `sfs_bmap_free_sub_nolock` -/
def sfs_bmap_free_sub_nolock (ent index : Nat) : SfsM Unit := do
  check .freeSubInuse (← sfs_block_inuse ent)
  Routine.assert .entIndex fun _ => index < 1024
  let ino ← sfs_rbuf 4 ent (index * 4)
  Routine.when (ofLe ino ≠ 0) do
    sfs_wbuf (toLe 4 0) ent (index * 4)
    sfs_block_free (ofLe ino)

/-- `sfs_bmap_free_nolock` -/
def sfs_bmap_free_nolock (ino index : Nat) : SfsM Unit := do
  let sin ← sfsInode ino
  if h : index < 12 then
    Routine.when (sin.din.direct ⟨index, h⟩ ≠ 0) do
      sfs_block_free (sin.din.direct ⟨index, h⟩)
      setDin ino (fun din => { din with direct := Function.update din.direct ⟨index, h⟩ 0 }) true
  else
    -- an index out of range, or a file without an indirect block, is no error
    Routine.when (index - 12 < 1024 ∧ sin.din.indirect ≠ 0) do
      sfs_bmap_free_sub_nolock sin.din.indirect (index - 12)

/-- `sfs_bmap_load_nolock` -/
def sfs_bmap_load_nolock (ino index : Nat) : SfsM Nat := do
  let sin ← sfsInode ino
  Routine.assert .loadIndex fun _ => index ≤ sin.din.blocks
  let block ← sfs_bmap_get_nolock ino index (index = sin.din.blocks)
  check .loadBlockInuse (← sfs_block_inuse block)
  Routine.when (index = sin.din.blocks) do
    -- the code does not set `dirty` here
    setDin ino (fun din => { din with blocks := din.blocks + 1 }) false
  return block

/-- `sfs_bmap_truncate_nolock` -/
def sfs_bmap_truncate_nolock (ino : Nat) : SfsM Unit := do
  let sin ← sfsInode ino
  Routine.assert .truncEmpty fun _ => sin.din.blocks ≠ 0
  sfs_bmap_free_nolock ino (sin.din.blocks - 1)
  setDin ino (fun din => { din with blocks := din.blocks - 1 }) true

/-! ### Directories -/

/-- A `struct sfs_disk_entry`. The name is a C string and so ends before the first zero. -/
structure SfsDiskEntry where
  ino : Nat
  name : List UInt8

/-- The `struct sfs_disk_entry` of 260 bytes, with the zero behind `SFS_MAX_FNAME_LEN` bytes
of the name. -/
def SfsDiskEntry.decode (buf : List UInt8) : SfsDiskEntry where
  ino := ofLe (buf.take 4)
  name := ((buf.drop 4).take 255).takeWhile fun c => c ≠ 0

/-- `sfs_dirent_read_nolock` -/
def sfs_dirent_read_nolock (ino slot : Nat) : SfsM SfsDiskEntry := do
  let sin ← sfsInode ino
  Routine.assert .direntSlot fun _ => sin.din.type = SFS_TYPE_DIR ∧ slot < sin.din.blocks
  let block ← sfs_bmap_load_nolock ino slot
  check .direntInuse (← sfs_block_inuse block)
  let entry ← sfs_rbuf 260 block 0
  return SfsDiskEntry.decode entry

/-- The loop of `sfs_dirent_search_nolock`, over `n` slots. -/
def sfs_dirent_search_loop (ino : Nat) (name : List UInt8) : Nat → Nat → SfsM Nat
  | 0, _ => Routine.fail .noEnt
  | n + 1, i => do
      let entry ← sfs_dirent_read_nolock ino i
      -- a slot whose number is 0 is empty
      if entry.ino ≠ 0 ∧ name = entry.name then
        return entry.ino
      else
        sfs_dirent_search_loop ino name n (i + 1)

/-- `sfs_dirent_search_nolock`. `kmalloc` tells whether there is memory for the entry. -/
def sfs_dirent_search_nolock (ino : Nat) (name : List UInt8) (kmalloc : Bool) : SfsM Nat := do
  Routine.assert .nameLength fun _ => name.length ≤ 255
  if kmalloc = false then
    Routine.fail .noMem
  else
    let sin ← sfsInode ino
    sfs_dirent_search_loop ino name sin.din.blocks 0

/-- `sfs_getdirentry_sub_nolock`, over `n` slots from `i` on -/
def sfs_getdirentry_sub_nolock (ino : Nat) : Nat → Nat → Nat → SfsM SfsDiskEntry
  | 0, _, _ => Routine.fail .noEnt
  | n + 1, i, slot => do
      let entry ← sfs_dirent_read_nolock ino i
      if entry.ino ≠ 0 then
        if slot = 0 then return entry
        else sfs_getdirentry_sub_nolock ino n (i + 1) (slot - 1)
      else sfs_getdirentry_sub_nolock ino n (i + 1) slot

/-- `sfs_getdirentry`, with the offset of the request. The result is the name. -/
def sfs_getdirentry (ino : Nat) (offset : Int) (kmalloc : Bool) : SfsM (List UInt8) := do
  if kmalloc = false then
    Routine.fail .noMem
  else if offset < 0 ∨ offset % 256 ≠ 0 then
    Routine.fail .inval
  else
    let sin ← sfsInode ino
    -- `slot` is an `int`, and is compared as an unsigned one
    let slot := (offset / 256).toNat % 2 ^ 32
    if sin.din.blocks < slot then
      Routine.fail .noEnt
    else
      let entry ← sfs_getdirentry_sub_nolock ino sin.din.blocks 0 slot
      return entry.name

/-! ### The counts of an inode -/

/-- The functions of `sfs_node_dirops` and `sfs_node_fileops` that one of the two lacks. -/
inductive Vop where
  | read
  | write
  | getdirentry
  | tryseek
  | truncate
  | lookup
  | both

/-- There is a function for an inode of the type. -/
def Vop.present (vop : Vop) (type : Nat) : Bool :=
  match vop with
  | .read | .write | .tryseek | .truncate => type = SFS_TYPE_FILE
  | .getdirentry | .lookup => type = SFS_TYPE_DIR
  | .both => true

/-- `__vop_op` with its `inode_check`; `MAX_INODE_COUNT` is `0x10000`. -/
def vop_op (ino : Nat) (vop : Vop) : SfsM Unit := do
  let sin ← sfsInode ino
  Routine.assert .noVop fun _ => vop.present sin.din.type = true
  Routine.assert .inodeCheck fun _ => sin.open_count ≤ sin.ref_count ∧
    sin.ref_count < 0x10000 ∧ sin.open_count < 0x10000

/-- `lookup_sfs_nolock` -/
def lookup_sfs_nolock (ino : Nat) : SfsM Bool := do
  let sfs ← Routine.read id
  if (sfs.inodes ino).isSome then
    setSfsInode ino fun sin =>
      { sin with
        ref_count := sin.ref_count + 1
        -- `if (vop_ref_inc(node) == 1) sin->reclaim_count ++`
        reclaim_count := if sin.ref_count + 1 = 1 then sin.reclaim_count + 1
          else sin.reclaim_count }
    return true
  else
    return false

/-- `sfs_create_inode` and `sfs_set_links` behind it -/
def sfs_create_inode (din : SfsDiskInode) (ino : Nat) (kmalloc : Bool) : SfsM Unit :=
  if kmalloc = false then Routine.fail .noMem
  else do
    -- `sfs_get_ops`
    Routine.assert .fileType fun _ => din.type = SFS_TYPE_DIR ∨ din.type = SFS_TYPE_FILE
    Routine.modify fun sfs =>
      { sfs with
        inode_list := ino :: sfs.inode_list
        inodes := Function.update sfs.inodes ino
          (some { din := din, dirty := false, reclaim_count := 1, ref_count := 1,
                  open_count := 0 }) }

/-- `sfs_load_inode`. `kmalloc` tells whether there is memory for the two structures. -/
def sfs_load_inode (ino : Nat) (kmalloc : Bool × Bool) : SfsM Unit := do
  if ← lookup_sfs_nolock ino then
    pure ()
  else if kmalloc.1 = false then
    Routine.fail .noMem
  else
    check .loadInuse (← sfs_block_inuse ino)
    let buf ← sfs_rbuf 64 ino 0
    let din := SfsDiskInode.decode (bufferBlock buf)
    Routine.assert .loadLinks fun _ => din.nlinks ≠ 0
    sfs_create_inode din ino kmalloc.2

/-! ### Reading and writing -/

/-- A number as an `off_t`. -/
def toOff (x : Int) : Int := x.bmod (2 ^ 64)

/-- The local variables of `sfs_io_nolock`: the length that has been moved, the buffer from
the pointer on, and what has been put into it. -/
structure IoVars where
  sfs : Sfs
  alen : Nat
  buf : List UInt8
  data : List UInt8

/-- The body of `sfs_io_nolock`, with `goto out` as the error. -/
abbrev IoM := Routine IoVars Errno SfsPanic

/-- A call from the body. -/
def onSfs {α : Type} (x : SfsM α) : IoM α :=
  x.within (fun v => v.sfs) fun v sfs => { v with sfs := sfs }

/-- `sfs_buf_op`: `sfs_wbuf` or `sfs_rbuf`, with the pointer moved behind. -/
def sfs_buf_op (write : Bool) (size ino blkoff : Nat) : IoM Unit := do
  if write = true then
    let buf ← Routine.read fun v => v.buf
    onSfs (sfs_wbuf (buf.take size) ino blkoff)
    Routine.modify fun v => { v with buf := v.buf.drop size }
  else
    let data ← onSfs (sfs_rbuf size ino blkoff)
    Routine.modify fun v => { v with buf := v.buf.drop size, data := v.data ++ data }

/-- `sfs_block_op`: `sfs_wblock` or `sfs_rblock`, with the pointer moved behind. -/
def sfs_block_op (write : Bool) (ino : Nat) : IoM Unit := do
  if write = true then
    let buf ← Routine.read fun v => v.buf
    onSfs (sfs_wblock (buf.take 4096) ino)
    Routine.modify fun v => { v with buf := v.buf.drop 4096 }
  else
    let data ← onSfs (sfs_rblock ino)
    Routine.modify fun v => { v with buf := v.buf.drop 4096, data := v.data ++ data }

/-- One part of a block. -/
def sfs_io_part (ino : Nat) (write : Bool) (blkno size blkoff : Nat) : IoM Unit := do
  let block ← onSfs (sfs_bmap_load_nolock ino blkno)
  sfs_buf_op write size block blkoff
  Routine.modify fun v => { v with alen := v.alen + size }

/-- The loop over the full blocks, `n` of them. -/
def sfs_io_blocks (ino : Nat) (write : Bool) : Nat → Nat → IoM Unit
  | 0, _ => pure ()
  | n + 1, blkno => do
      let block ← onSfs (sfs_bmap_load_nolock ino blkno)
      sfs_block_op write block
      Routine.modify fun v => { v with alen := v.alen + 4096 }
      sfs_io_blocks ino write n (blkno + 1)

/-- The three steps of `sfs_io_nolock`, up to `out`. -/
def sfs_io_steps (ino : Nat) (write : Bool) (offset endpos : Nat) : IoM Unit := do
  -- the source counts the blocks in `nblks` and leaves when none is left
  if offset / 4096 = endpos / 4096 then
    sfs_io_part ino write (offset / 4096) (endpos - offset) (offset % 4096)
  else
    Routine.when (offset % 4096 ≠ 0) do
      sfs_io_part ino write (offset / 4096) (4096 - offset % 4096) (offset % 4096)
    let blkno := if offset % 4096 ≠ 0 then offset / 4096 + 1 else offset / 4096
    sfs_io_blocks ino write (endpos / 4096 - blkno) blkno
    Routine.when (endpos % 4096 ≠ 0) do
      sfs_io_part ino write (endpos / 4096) (endpos % 4096) 0

/-- What `sfs_io_nolock` returns: the error code, `*alenp`, and what it has put into the
buffer. -/
structure IoResult where
  ret : Except Errno Unit
  alen : Nat
  data : List UInt8

/-- `sfs_io_nolock` behind its checks. -/
def sfs_io_transfer (ino : Nat) (buf : List UInt8) (offset endpos : Nat) (write : Bool) :
    SfsM IoResult := do
  let r ← (sfs_io_steps ino write offset endpos).withLocals
    (fun sfs => { sfs := sfs, alen := 0, buf := buf, data := [] }) fun v => v.sfs
  -- `out`
  let sin ← sfsInode ino
  Routine.when (sin.din.size < offset + r.2.alen) do
    setDin ino (fun din => { din with size := offset + r.2.alen }) true
  return { ret := r.1, alen := r.2.alen, data := r.2.data }

/-- `sfs_io_nolock`. The length is that of the buffer. -/
def sfs_io_nolock (ino : Nat) (buf : List UInt8) (offset : Int) (write : Bool) :
    SfsM IoResult := do
  let sin ← sfsInode ino
  Routine.assert .ioDir fun _ => sin.din.type ≠ SFS_TYPE_DIR
  -- the sum may wrap, and then `endpos` is below `offset`
  let endpos := toOff (offset + buf.length)
  if offset < 0 ∨ (SFS_MAX_FILE_SIZE : Int) ≤ offset ∨ endpos < offset then
    return { ret := .error .inval, alen := 0, data := [] }
  else if offset = endpos then
    return { ret := .ok (), alen := 0, data := [] }
  else
    -- a write ends at the largest file size, and a read at the size of the file too
    let endpos := min endpos SFS_MAX_FILE_SIZE
    if write = false ∧ sin.din.size ≤ offset.toNat then
      return { ret := .ok (), alen := 0, data := [] }
    else
      let endpos := if write = false then min endpos.toNat sin.din.size else endpos.toNat
      sfs_io_transfer ino buf offset.toNat endpos write

/-- `sfs_io`: the call with the `iobuf_skip` behind it. -/
def sfs_io (ino : Nat) (buf : List UInt8) (offset : Int) (write : Bool) : SfsM IoResult := do
  let r ← sfs_io_nolock ino buf offset write
  Routine.assert .iobufSkip fun _ => r.alen ≤ buf.length
  return r

/-! ### Truncation -/

/-- The loop of `sfs_truncfile` that enlarges the file, by `n` blocks from `nblks` on. -/
def sfs_truncfile_enlarge (ino : Nat) : Nat → Nat → SfsM Unit
  | 0, _ => pure ()
  | n + 1, nblks => do
      let _ ← sfs_bmap_load_nolock ino nblks
      sfs_truncfile_enlarge ino n (nblks + 1)

/-- The loop of `sfs_truncfile` that reduces the file, by `n` blocks. -/
def sfs_truncfile_reduce (ino : Nat) : Nat → SfsM Unit
  | 0 => pure ()
  | n + 1 => do
      sfs_bmap_truncate_nolock ino
      sfs_truncfile_reduce ino n

/-- The two loops of `sfs_truncfile`: from `nblks` to `tblks` blocks. -/
def sfs_truncfile_loops (ino nblks tblks : Nat) : SfsM Unit :=
  if nblks < tblks then sfs_truncfile_enlarge ino (tblks - nblks) nblks
  else if tblks < nblks then sfs_truncfile_reduce ino (nblks - tblks)
  else pure ()

/-- `sfs_truncfile` from the lock on: to `tblks` blocks and the size `len`. -/
def sfs_truncfile_resize (ino len tblks : Nat) : SfsM Unit := do
  let sin ← sfsInode ino
  sfs_truncfile_loops ino sin.din.blocks tblks
  let sin ← sfsInode ino
  Routine.assert .truncResult fun _ => sin.din.blocks = tblks
  setDin ino (fun din => { din with size := len }) true

/-- `sfs_truncfile` -/
def sfs_truncfile (ino : Nat) (len : Int) : SfsM Unit := do
  if len < 0 ∨ (SFS_MAX_FILE_SIZE : Int) < len then
    Routine.fail .inval
  else
    let tblks := (len.toNat + 4095) / 4096
    let sin ← sfsInode ino
    if sin.din.size = len.toNat then
      -- nothing to do, with the assertion that the blocks say so too
      Routine.assert .truncBlocks fun _ => tblks = sin.din.blocks
    else
      sfs_truncfile_resize ino len.toNat tblks

/-- `vop_truncate` -/
def vop_truncate (ino : Nat) (len : Int) : SfsM Unit := do
  vop_op ino .truncate
  sfs_truncfile ino len

/-- `sfs_tryseek` -/
def sfs_tryseek (ino : Nat) (pos : Int) : SfsM Unit := do
  if pos < 0 ∨ (SFS_MAX_FILE_SIZE : Int) ≤ pos then
    Routine.fail .inval
  else
    let sin ← sfsInode ino
    Routine.when (sin.din.size < pos.toNat) do
      vop_truncate ino pos

/-! ### Writing back and reclaiming -/

/-- `sfs_fsync` -/
def sfs_fsync (ino : Nat) : SfsM Unit := do
  let sin ← sfsInode ino
  Routine.when (sin.dirty = true) do
    -- `dirty` is cleared before the write, and set again when the write fails
    setSfsInode ino fun sin => { sin with dirty := false }
    (sfs_wbuf sin.din.encode ino 0).handle fun ret => do
      setSfsInode ino fun sin => { sin with dirty := true }
      Routine.fail ret

/-- `vop_fsync`, which `sfs_close` calls too. -/
def vop_fsync (ino : Nat) : SfsM Unit := do
  vop_op ino .both
  sfs_fsync ino

/-- `sfs_remove_links`, with the structures freed. -/
def sfs_remove_links (ino : Nat) : SfsM Unit :=
  Routine.modify fun sfs =>
    { sfs with
      inode_list := sfs.inode_list.erase ino
      inodes := Function.update sfs.inodes ino none }

/-- `sfs_reclaim` -/
def sfs_reclaim (ino : Nat) : SfsM Unit := do
  let sin ← sfsInode ino
  Routine.assert .reclaimCount fun _ => 0 < sin.reclaim_count
  setSfsInode ino fun sin => { sin with reclaim_count := sin.reclaim_count - 1 }
  -- another reclaim is on its way, or the inode has been looked up again
  if sin.reclaim_count - 1 ≠ 0 ∨ sin.ref_count ≠ 0 then
    Routine.fail .busy
  else
    -- a file without links gives its blocks back
    Routine.when (sin.din.nlinks = 0) do
      vop_truncate ino 0
    let sin ← sfsInode ino
    Routine.when (sin.dirty = true) do
      vop_fsync ino
    sfs_remove_links ino
    Routine.when (sin.din.nlinks = 0) do
      sfs_block_free ino
      Routine.when (sin.din.indirect ≠ 0) do
        sfs_block_free sin.din.indirect
    -- `vop_kill`
    Routine.assert .inodeKill fun _ => sin.ref_count = 0 ∧ sin.open_count = 0

/-- `inode_ref_inc` -/
def inode_ref_inc (ino : Nat) : SfsM Unit :=
  setSfsInode ino fun sin => { sin with ref_count := sin.ref_count + 1 }

/-- `inode_ref_dec`. A failed `vop_reclaim` is only printed. -/
def inode_ref_dec (ino : Nat) : SfsM Unit := do
  let sin ← sfsInode ino
  Routine.assert .refCount fun _ => 0 < sin.ref_count
  setSfsInode ino fun sin => { sin with ref_count := sin.ref_count - 1 }
  Routine.when (sin.ref_count - 1 = 0) do
    vop_op ino .both
    (sfs_reclaim ino).handle fun _ => pure ()

/-- `inode_open_inc` -/
def inode_open_inc (ino : Nat) : SfsM Unit :=
  setSfsInode ino fun sin => { sin with open_count := sin.open_count + 1 }

/-- `inode_open_dec`. A failed `vop_close` is only printed. -/
def inode_open_dec (ino : Nat) : SfsM Unit := do
  let sin ← sfsInode ino
  Routine.assert .openCount fun _ => 0 < sin.open_count
  setSfsInode ino fun sin => { sin with open_count := sin.open_count - 1 }
  Routine.when (sin.open_count - 1 = 0) do
    vop_op ino .both
    (vop_fsync ino).handle fun _ => pure ()

/-! ### Lookup -/

/-- `sfs_lookup_once`. `kmalloc` tells whether there is memory for the entry, and for the
two structures of the inode. -/
def sfs_lookup_once (ino : Nat) (name : List UInt8) (kmalloc : Bool × Bool × Bool) :
    SfsM Nat := do
  let node ← sfs_dirent_search_nolock ino name kmalloc.1
  sfs_load_inode node kmalloc.2
  return node

/-- `sfs_lookup` -/
def sfs_lookup (ino : Nat) (path : List UInt8) (kmalloc : Bool × Bool × Bool) : SfsM Nat := do
  -- 47 is `'/'`
  Routine.assert .lookupPath fun _ => path ≠ [] ∧ path.head? ≠ some 47
  inode_ref_inc ino
  let sin ← sfsInode ino
  if sin.din.type ≠ SFS_TYPE_DIR then
    inode_ref_dec ino
    Routine.fail .notDir
  else
    -- the reference is given back whatever comes of it
    let ret ← (sfs_lookup_once ino path kmalloc).attempt
    inode_ref_dec ino
    match ret with
    | .ok node => return node
    | .error e => Routine.fail e

end Ucore.Fs
